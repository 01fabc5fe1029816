import Nachos.Filesys.Consistency

/-!
# Files that are too large

A header has room for `NumDirect` sectors. `Allocate` asks for free sectors only, so a file
may get more than that.
-/
namespace Nachos.Filesys

open Bytes (Byte)

namespace FileHeader

variable {old h : FileHeader} {m m' : BitMap} {fileSize : BitVec 32} {i n : ℕ}

/-- The loop of `Allocate` from `i` on: what it assigns to `dataSectors`, and the bitmap. -/
def allocateLoop (freeMap : BitMap) (i : ℕ) : ℕ → List (ℕ × BitVec 32) × BitMap
  | 0 => ([], freeMap)
  | n + 1 =>
    let r := freeMap.find
    let rest := allocateLoop r.2 (i + 1) n
    ((i, BitVec.ofInt 32 r.1) :: rest.1, rest.2)

/-- The assignments of `Allocate`, in the array or behind it. -/
def assignments (freeMap : BitMap) (fileSize : BitVec 32) : List (ℕ × BitVec 32) :=
  let numSectors := sdivRoundUp fileSize (BitVec.ofNat 32 SectorSize)
  if (freeMap.numClear : Int) < numSectors.toInt then []
  else (allocateLoop freeMap 0 numSectors.toInt.toNat).1

theorem allocateLoop_eq (m : BitMap) (i n : ℕ) : allocateLoop m i n =
    ((List.range' i n).zip ((m.finds n).map (BitVec.ofInt 32)), m.afterFinds n) := by
  induction n generalizing m i with
  | zero => rfl
  | succ n ih =>
    rw [allocateLoop, ih, List.range'_succ, BitMap.finds, List.map_cons, List.zip_cons_cons,
      BitMap.afterFinds]

theorem assignments_eq (m : BitMap) (hs : fileSize.toNat < 2 ^ 31) : assignments m fileSize =
    if m.numClear < needed fileSize then []
    else (List.range' 0 (needed fileSize)).zip ((m.finds (needed fileSize)).map (BitVec.ofInt 32)) := by
  simp only [assignments, toInt_numSectors_of hs, Int.toNat_natCast, Int.ofNat_lt, allocateLoop_eq]

/-- In order, to the first places of the array. -/
theorem index_assignments (m : BitMap) (hs : fileSize.toNat < 2 ^ 31) :
    (assignments m fileSize).map Prod.fst =
      if m.numClear < needed fileSize then [] else List.range (needed fileSize) := by
  rw [assignments_eq m hs]
  split
  · rfl
  · rw [List.map_fst_zip (by simp), List.range_eq_range']

/-- The array after these assignments, if those behind it are left out. -/
theorem getElem?_assign (l : List (BitVec 32)) (ws : List (BitVec 32)) (i j : ℕ) :
    (((List.range' i ws.length).zip ws).foldl (fun l w => l.set w.1 w.2) l)[j]? =
      if j < l.length ∧ i ≤ j ∧ j < i + ws.length then ws[j - i]? else l[j]? := by
  induction ws generalizing l i with
  | nil =>
    rw [if_neg (by simp only [List.length_nil]; omega)]
    rfl
  | cons w ws ih =>
    rw [List.length_cons, List.range'_succ, List.zip_cons_cons, List.foldl_cons, ih,
      List.length_set, List.getElem?_set]
    by_cases hij : i = j
    · subst hij
      rw [if_neg (by omega), if_pos rfl, Nat.sub_self]
      split <;> rename_i hlt
      · rw [if_pos ⟨hlt, by omega⟩]
        rfl
      · rw [if_neg (by omega), List.getElem?_eq_none (by omega)]
    · rw [if_neg hij]
      by_cases hin : j < l.length ∧ i + 1 ≤ j ∧ j < i + 1 + ws.length
      · rw [if_pos hin, if_pos (by omega), show j - i = j - (i + 1) + 1 by omega]
        rfl
      · rw [if_neg hin, if_neg (by omega)]

/-- What is in the array of the new header. -/
theorem dataSectors_allocate (ho : old.dataSectors.length = NumDirect)
    (hs : fileSize.toNat < 2 ^ 31) (ha : old.allocate m fileSize = some (h, m')) :
    (assignments m fileSize).foldl (fun l w => l.set w.1 w.2) old.dataSectors =
      h.dataSectors.take NumDirect := by
  rw [allocate_eq old m hs] at ha
  split at ha
  · cases ha
  rename_i hclear
  simp only [Option.some.injEq, Prod.mk.injEq] at ha
  obtain ⟨rfl, -⟩ := ha
  have hlen : ((m.finds (needed fileSize)).map (BitVec.ofInt 32)).length = needed fileSize := by
    simp
  rw [assignments_eq m hs, if_neg hclear]
  refine List.ext_getElem? fun j => ?_
  generalize (m.finds (needed fileSize)).map (BitVec.ofInt 32) = ws at hlen
  rw [← hlen, getElem?_assign, ho, List.getElem?_take, List.getElem?_append, List.getElem?_drop]
  by_cases hj : j < NumDirect
  · rw [if_pos hj]
    by_cases hjn : j < ws.length
    · rw [if_pos hjn, if_pos (by omega), Nat.sub_zero]
    · rw [if_neg hjn, if_neg (by omega), Nat.add_sub_cancel' (by omega)]
  · rw [if_neg hj, if_neg (by omega), List.getElem?_eq_none (by omega)]

/-- `Allocate` only marks. -/
theorem map_allocate (hs : fileSize.toNat < 2 ^ 31) (ha : old.allocate m fileSize = some (h, m')) :
    m'.numBits = m.numBits ∧ ∀ j, m.test j = true → m'.test j = true := by
  rw [allocate_eq old m hs] at ha
  split at ha
  · cases ha
  rename_i hclear
  simp only [Option.some.injEq, Prod.mk.injEq] at ha
  obtain ⟨-, rfl⟩ := ha
  obtain ⟨l, -, -, -, -, hbits, htest⟩ := BitMap.finds_spec (not_lt.mp hclear)
  refine ⟨hbits, fun j hj => ?_⟩
  rw [htest j, hj, Bool.or_true]

/-- `Allocate` keeps to the header: it assigns to elements of the array, it refuses what is
too large, and the new header can be stored. -/
structure Bounded (old : FileHeader) (m : BitMap) (fileSize : BitVec 32) : Prop where
  inTable : ∀ w ∈ assignments m fileSize, w.1 < NumDirect
  refused : MaxFileSize < fileSize.toNat → old.allocate m fileSize = none
  stored : ∀ h m', old.allocate m fileSize = some (h, m') → decode (sectorOf h.encode).1 = h

theorem needed_le_iff : needed fileSize ≤ NumDirect ↔ fileSize.toNat ≤ MaxFileSize := by
  simp only [needed, MaxFileSize, NumDirect, SectorSize]
  omega

/-- The array is left exactly if the file is too large and there is space for it. -/
theorem inTable_iff (m : BitMap) (hs : fileSize.toNat < 2 ^ 31) :
    (∀ w ∈ assignments m fileSize, w.1 < NumDirect) ↔
      fileSize.toNat ≤ MaxFileSize ∨ m.numClear < needed fileSize := by
  have hindex := index_assignments m hs
  have hmap : (∀ w ∈ assignments m fileSize, w.1 < NumDirect) ↔
      ∀ i ∈ (assignments m fileSize).map Prod.fst, i < NumDirect := by
    rw [List.forall_mem_map]
  rw [hmap, hindex]
  split
  · rename_i hlack
    exact iff_of_true (by simp) (.inr hlack)
  · rename_i hclear
    rw [or_iff_left hclear, ← needed_le_iff]
    constructor
    · intro hall
      by_contra hmore
      exact absurd (hall NumDirect (List.mem_range.mpr (by omega))) (lt_irrefl NumDirect)
    · intro hle i hi
      exact (List.mem_range.mp hi).trans_le hle

theorem length_dataSectors_allocate (ho : old.dataSectors.length = NumDirect)
    (hs : fileSize.toNat ≤ MaxFileSize) (ha : old.allocate m fileSize = some (h, m')) :
    h.dataSectors.length = NumDirect := by
  have hmax := needed_le_iff.mpr hs
  rw [allocate_eq old m (small_of_le hs)] at ha
  split at ha
  · cases ha
  · simp only [Option.some.injEq, Prod.mk.injEq] at ha
    rw [← ha.1]
    simp only [List.length_append, List.length_map, BitMap.length_finds, List.length_drop, ho]
    omega

/-- A header is stored without the sectors behind its array. -/
theorem decode_sectorOf (hd : NumDirect ≤ h.dataSectors.length) : decode (sectorOf h.encode).1 =
    { h with dataSectors := h.dataSectors.take NumDirect } := by
  obtain ⟨numBytes, numSectors, dataSectors⟩ := h
  have hlen : (dataSectors.take NumDirect).length = NumDirect := List.length_take_of_le hd
  have hsplit : encode ⟨numBytes, numSectors, dataSectors⟩ =
      encode ⟨numBytes, numSectors, dataSectors.take NumDirect⟩ ++
        (dataSectors.drop NumDirect).flatMap Bytes.ofWord := by
    simp only [encode, List.flatMap_cons, List.append_assoc]
    rw [← List.flatMap_append, List.take_append_drop]
  have hsector : (sectorOf (encode ⟨numBytes, numSectors, dataSectors⟩)).1 =
      encode ⟨numBytes, numSectors, dataSectors.take NumDirect⟩ := by
    rw [hsplit]
    show (_ ++ _ ++ List.replicate SectorSize 0).take SectorSize = _
    rw [List.append_assoc]
    exact List.take_left' (length_encode hlen)
  rw [hsector, decode_encode hlen]

theorem decode_sectorOf_encode (hd : h.dataSectors.length = NumDirect) :
    decode (sectorOf h.encode).1 = h := by
  rw [decode_sectorOf hd.ge, List.take_of_length_le hd.le]

theorem bounded_iff (ho : old.dataSectors.length = NumDirect) (m : BitMap)
    (hs : fileSize.toNat < 2 ^ 31) :
    old.Bounded m fileSize ↔ fileSize.toNat ≤ MaxFileSize ∨ m.numClear < needed fileSize := by
  constructor
  · intro hb
    exact (inTable_iff m hs).mp hb.inTable
  · intro hc
    refine ⟨(inTable_iff m hs).mpr hc, fun hmax => ?_, fun h m' ha => ?_⟩
    · rw [allocate_eq old m hs, if_pos (hc.resolve_left (by omega))]
    · rcases hc with hle | hlack
      · exact decode_sectorOf_encode (length_dataSectors_allocate ho hle ha)
      · rw [allocate_eq old m hs, if_pos hlack] at ha
        cases ha

end FileHeader

/-! ## `Create` -/

variable {fs : FileSystem} {d d' : Disk} {u : Uninitialized} {name : List Byte}
  {initialSize : BitVec 32}

namespace FileSystem

/-- What `Allocate` assigns in a call of `Create`, if the call comes to it. -/
def assignments (fs : FileSystem) (d : Disk) (name : List Byte) (initialSize : BitVec 32) :
    List (ℕ × BitVec 32) :=
  match prepared (directoryOn fs d) (mapOn fs d) name with
  | none => []
  | some (_, freeMap, _) => FileHeader.assignments freeMap initialSize

/-- `Create` keeps to the header of the new file, refuses what is too large, and the header is
read as it was allocated. -/
structure Bounded (fs : FileSystem) (u : Uninitialized) (name : List Byte)
    (initialSize : BitVec 32) (d : Disk) : Prop where
  inTable : ∀ w ∈ fs.assignments d name initialSize, w.1 < NumDirect
  refused : MaxFileSize < initialSize.toNat → fs.create u name initialSize d = some (false, d)
  stored : ∀ d', fs.create u name initialSize d = some (true, d') → ∃ hdr map,
    (FileHeader.decode u.hdr).allocate (mapOn fs d).find.2 initialSize = some (hdr, map) ∧
      FileHeader.fetchFrom ((directoryOn fs d').find name) d' = some (hdr, d')

end FileSystem

namespace Served

theorem assignments_of_lack (hsize : initialSize.toNat < 2 ^ 31)
    (hlack : ¬HasRoom fs d name initialSize) : fs.assignments d name initialSize = [] := by
  rw [FileSystem.assignments]
  rcases FileSystem.prepared_cases (directoryOn fs d) (mapOn fs d) name with ⟨hnone, -⟩ |
    ⟨s, i, hi, hs, hfree, -, hnew, hunused, hsome⟩
  · rw [hnone]
  · rw [hsome]
    show FileHeader.assignments ((mapOn fs d).mark s) initialSize = []
    have hclear := BitMap.numClear_mark hs hfree
    rw [FileHeader.assignments_eq _ hsize, if_pos]
    by_contra hroom
    rw [FileHeader.needed] at hroom
    exact hlack ⟨hnew, ⟨_, List.getElem_mem hi, hunused⟩, by omega⟩

/-- `Create` of a file for which there is room, however large it is. -/
theorem create_room (h : Served fs d) (u : Uninitialized) (hsize : initialSize.toNat < 2 ^ 31)
    (hroom : HasRoom fs d name initialSize) :
    ∃ hdr map d', (FileHeader.decode u.hdr).allocate (mapOn fs d).find.2 initialSize =
        some (hdr, map) ∧
      fs.assignments d name initialSize =
        FileHeader.assignments (mapOn fs d).find.2 initialSize ∧
      fs.create u name initialSize d = some (true, d') ∧ Served fs d' ∧
      FileHeader.fetchFrom ((directoryOn fs d').find name) d' =
        some (FileHeader.decode (sectorOf hdr.encode).1, d') := by
  rcases h.create_branches u name hsize with ⟨hlack, -⟩ |
    ⟨-, s, i, hi, hdr, map, hs, hfree, hfind, hunused, hprepared, ha, hcreate⟩
  · exact absurd hroom hlack
  have hnat : (BitVec.ofNat 32 s).toNat = s := toNat_sector hs
  obtain ⟨hbits, hmore⟩ := FileHeader.map_allocate hsize ha
  obtain ⟨d', hrun, hsector, hdir, hmap, hother⟩ := h.createIn_run (u := u)
    (s := BitVec.ofNat 32 s) (hnat.symm ▸ hs) (hnat.symm ▸ hfree)
    (h.valid_directory.modify hi fun e he => Directory.full_added he) ha hbits
  rw [hnat] at hsector
  rw [hfind]
  refine ⟨hdr, map, d', ha, ?_, hcreate.trans hrun, ?_, ?_⟩
  · rw [FileSystem.assignments, hprepared]
  · -- both files are where they were, and their sectors stay marked
    refine { h with marked := fun x hx => ?_ }
    have hold := h.marked x hx
    have hlt : x < NumSectors := by
      rcases hx with hx | hx
      · exact h.placed_map.range x hx
      · exact h.placed_directory.range x hx
    rw [hmap x hlt]
    exact hmore x (by rw [BitMap.test_mark, hold, Bool.or_true])
  · rw [hdir, Directory.find_added hi hroom.new, fetchFrom_spec (hnat.symm ▸ hs), headerAt, hnat,
      hsector]

theorem bounded_iff (h : Served fs d) (u : Uninitialized) (name : List Byte)
    (hsize : initialSize.toNat < 2 ^ 31) : fs.Bounded u name initialSize d ↔
      initialSize.toNat ≤ MaxFileSize ∨ ¬HasRoom fs d name initialSize := by
  by_cases hroom : HasRoom fs d name initialSize
  · obtain ⟨hdr, map, d', ha, hassign, hcreate, -, hfetch⟩ := h.create_room u hsize hroom
    constructor
    · intro hb
      refine .inl (not_lt.mp fun hmax => ?_)
      have hrefused := hb.refused hmax
      rw [hcreate] at hrefused
      cases hrefused
    · intro hc
      have hmax := hc.resolve_right (not_not.mpr hroom)
      refine ⟨?_, fun hlt => absurd hmax (by omega), fun d'' hrun => ?_⟩
      · rw [hassign]
        exact (FileHeader.inTable_iff _ hsize).mpr (.inl hmax)
      · rw [hcreate, Option.some.injEq, Prod.mk.injEq] at hrun
        obtain ⟨-, rfl⟩ := hrun
        have hlength := FileHeader.length_dataSectors_allocate
          (FileHeader.length_dataSectors_decode u.hdr) hmax ha
        rw [FileHeader.decode_sectorOf_encode hlength] at hfetch
        exact ⟨hdr, map, ha, hfetch⟩
  · have hfalse : fs.create u name initialSize d = some (false, d) := by
      rcases h.create_branches u name hsize with ⟨-, hfalse⟩ | ⟨hroom', -⟩
      · exact hfalse
      · exact absurd hroom' hroom
    refine iff_of_true ⟨?_, fun _ => hfalse, fun d' hrun => ?_⟩ (.inr hroom)
    · rw [assignments_of_lack hsize hroom]
      exact List.forall_mem_nil _
    · rw [hfalse] at hrun
      cases hrun

end Served

end Nachos.Filesys

namespace Nachos

open Filesys

/-- `Allocate` keeps to the header, whatever the bitmap is, exactly if the file is not too large
or there is no space for it. So does `Create`. -/
theorem oversized_refused_iff {old : FileHeader} (ho : old.dataSectors.length = NumDirect)
    (freeMap : BitMap) {fs : FileSystem} {d : Disk} (h : Served fs d) (u : Uninitialized)
    (name : List Bytes.Byte) {fileSize : BitVec 32} (h0 : 0 ≤ fileSize.toInt) :
    (old.Bounded freeMap fileSize ↔ fileSize.toNat ≤ MaxFileSize ∨
      freeMap.numClear < (fileSize.toNat + (SectorSize - 1)) / SectorSize) ∧
    (fs.Bounded u name fileSize d ↔ fileSize.toNat ≤ MaxFileSize ∨
      ¬HasRoom fs d name fileSize) := by
  have hsize : fileSize.toNat < 2 ^ 31 := by
    have := BitVec.toInt_pos_iff.mp h0
    omega
  exact ⟨FileHeader.bounded_iff ho freeMap hsize, h.bounded_iff u name hsize⟩

/-- The largest file, on an empty bitmap and on a new disk. -/
theorem oversized_refused_largest : ∃ fs d,
    FileSystem.format noMemory (fun _ => sectorOf []) = some (fs, d) ∧
    (FileHeader.decode []).Bounded (.ofSize NumSectors) 64512 ∧
    fs.Bounded noMemory (FileSystem.chars "a") 64512 d := by
  obtain ⟨fs, d, hformat, hsound, -⟩ := format_room noMemory fun _ => sectorOf []
  obtain ⟨hallocate, hcreate⟩ := oversized_refused_iff (FileHeader.length_dataSectors_decode [])
    (.ofSize NumSectors) hsound.mounted.served noMemory (FileSystem.chars "a")
    (show 0 ≤ (64512 : BitVec 32).toInt by decide)
  exact ⟨fs, d, hformat, hallocate.mpr (.inl (by decide)), hcreate.mpr (.inl (by decide))⟩

/-- One byte more, on a new disk: the file is created, and the array of its header is left. -/
theorem oversized_created : ∃ fs d d',
    FileSystem.format noMemory (fun _ => sectorOf []) = some (fs, d) ∧
    fs.create noMemory (FileSystem.chars "a") 64513 d = some (true, d') ∧
    (∃ w ∈ fs.assignments d (FileSystem.chars "a") 64513, w.1 = NumDirect) ∧
    ¬fs.Bounded noMemory (FileSystem.chars "a") 64513 d := by
  obtain ⟨fs, d, hformat, hsound, hroom⟩ := format_room noMemory fun _ => sectorOf []
  have hsize : (64513 : BitVec 32).toNat < 2 ^ 31 := by decide
  have hfits := hroom (FileSystem.chars "a") 64513 (by decide)
  obtain ⟨hdr, map, d', ha, hassign, hcreate, -, -⟩ :=
    hsound.mounted.served.create_room noMemory hsize hfits
  refine ⟨fs, d, d', hformat, hcreate, ?_, ?_⟩
  · have hspace := (FileHeader.allocate_isSome_iff _ _ hsize).mp (Option.isSome_of_eq_some ha)
    have hmem : NumDirect ∈ (fs.assignments d (FileSystem.chars "a") 64513).map Prod.fst := by
      rw [hassign, FileHeader.index_assignments _ hsize, if_neg (by omega)]
      decide +kernel
    obtain ⟨w, hw, heq⟩ := List.mem_map.mp hmem
    exact ⟨w, hw, heq⟩
  · intro hb
    rcases (hsound.mounted.served.bounded_iff noMemory _ hsize).mp hb with hmax | hlack
    · exact absurd hmax (by decide)
    · exact hlack hfits

end Nachos
