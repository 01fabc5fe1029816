import Nachos.Filesys.OpenFile

/-!
# The directory

`directory.cc`. The padding of an entry is not kept.
-/
namespace Nachos.Filesys

open Bytes (Byte)

def FileNameMaxLen : ℕ := 9
def NumDirEntries : ℕ := 10

/-- `sizeof(DirectoryEntry)`. -/
def entrySize : ℕ := 20

structure DirectoryEntry where
  inUse : Bool
  sector : BitVec 32
  name : List Byte

namespace DirectoryEntry

/-- The entry as it is in the directory file. -/
def encode (e : DirectoryEntry) : List Byte :=
  [if e.inUse then 1 else 0, 0, 0, 0] ++ Bytes.ofWord e.sector ++ e.name ++ [0, 0]

def decode (bs : List Byte) : DirectoryEntry :=
  ⟨bs.getD 0 0 ≠ 0, Bytes.toWord (bs.drop 4), (bs.drop 8).take (FileNameMaxLen + 1)⟩

/-- The array `name` has its full length. -/
def Full (e : DirectoryEntry) : Prop := e.name.length = FileNameMaxLen + 1

variable {e : DirectoryEntry}

theorem length_encode (h : e.Full) : e.encode.length = entrySize := by
  rw [Full] at h
  simp [encode, h, FileNameMaxLen, entrySize]

theorem decode_encode (h : e.Full) (bs : List Byte) : decode (e.encode ++ bs) = e := by
  obtain ⟨inUse, sector, name⟩ := e
  have hname : ((name ++ [0, 0] ++ bs).take (FileNameMaxLen + 1)) = name := by
    rw [List.append_assoc]
    exact List.take_left' h
  have hword : Bytes.toWord (Bytes.ofWord sector ++ (name ++ [0, 0] ++ bs)) = sector := by simp
  cases inUse with
  | true => exact congrArg₂ (DirectoryEntry.mk true) hword hname
  | false => exact congrArg₂ (DirectoryEntry.mk false) hword hname

end DirectoryEntry

/-- `strncmp(a, b, n) == 0`. -/
def strncmpEq (n : ℕ) (a b : List Byte) : Bool :=
  (a.take n).takeWhile (· ≠ 0) == (b.take n).takeWhile (· ≠ 0)

/-- `strncpy(dst, src, n)`. -/
def strncpy (dst src : List Byte) (n : ℕ) : List Byte :=
  let copied := (src.takeWhile (· ≠ 0)).take n
  copied ++ List.replicate (n - copied.length) 0 ++ dst.drop n

theorem length_strncpy {dst src : List Byte} {n : ℕ} (h : n ≤ dst.length) :
    (strncpy dst src n).length = dst.length := by
  simp only [strncpy, List.length_append, List.length_replicate, List.length_drop]
  have : ((src.takeWhile (· ≠ 0)).take n).length ≤ n := List.length_take_le _ _
  omega

theorem take_takeWhile {p : Byte → Bool} (l : List Byte) (n : ℕ) :
    (l.takeWhile p).take n = (l.take n).takeWhile p := by
  induction l generalizing n with
  | nil => simp
  | cons b l ih =>
    cases n with
    | zero => simp
    | succ n =>
      rw [List.take_succ_cons, List.takeWhile_cons, List.takeWhile_cons]
      split
      · rw [List.take_succ_cons, ih]
      · rfl

/-- What was copied is a prefix of the name that compares equal to it. -/
theorem strncmpEq_strncpy (dst src name : List Byte) (n : ℕ) :
    strncmpEq n (strncpy dst src n) name = strncmpEq n src name := by
  have hcopied : ((src.takeWhile (· ≠ 0)).take n).length ≤ n := List.length_take_le _ _
  have hne : ∀ b ∈ (src.takeWhile (· ≠ 0)).take n, decide (b ≠ 0) = true :=
    fun b hb => List.mem_takeWhile_imp (p := fun b => decide (b ≠ 0)) (List.mem_of_mem_take hb)
  have hzeros : ∀ k : ℕ, (List.replicate k (0 : Byte)).takeWhile (· ≠ 0) = [] := by
    intro k
    cases k <;> rfl
  simp only [strncmpEq, strncpy]
  rw [List.take_left' (by simp only [List.length_append, List.length_replicate]; omega),
    List.takeWhile_append_of_pos hne, hzeros, List.append_nil, take_takeWhile]

theorem strncmpEq_comm (n : ℕ) (a b : List Byte) : strncmpEq n a b = strncmpEq n b a := by
  rw [strncmpEq, strncmpEq, Bool.beq_comm]

theorem strncmpEq_trans {n : ℕ} {a b c : List Byte} (hab : strncmpEq n a b = true)
    (hbc : strncmpEq n b c = true) : strncmpEq n a c = true := by
  rw [strncmpEq, beq_iff_eq] at *
  exact hab.trans hbc

/-- `class Directory`: its table. -/
abbrev Directory := List DirectoryEntry

namespace Directory

variable {dir dir' : Directory} {name : List Byte} {sector : BitVec 32} {i : ℕ}

def encode (dir : Directory) : List Byte := dir.flatMap DirectoryEntry.encode

def decode (bs : List Byte) : Directory :=
  (List.range NumDirEntries).map fun i => DirectoryEntry.decode (bs.drop (entrySize * i))

/-- A table of the right size. -/
structure Valid (dir : Directory) : Prop where
  length : dir.length = NumDirEntries
  full : ∀ e ∈ dir, e.Full

theorem length_encode (h : ∀ e ∈ dir, e.Full) : dir.encode.length = entrySize * dir.length := by
  induction dir with
  | nil => rfl
  | cons e dir ih =>
    simp only [encode] at ih
    rw [encode, List.flatMap_cons, List.length_append,
      DirectoryEntry.length_encode (h e List.mem_cons_self),
      ih fun e' he => h e' (List.mem_cons_of_mem e he), List.length_cons, Nat.mul_succ]
    omega

/-- Each entry is found where it was written. -/
theorem decode_drop (h : ∀ e ∈ dir, e.Full) (hi : i < dir.length) (bs : List Byte) :
    DirectoryEntry.decode ((dir.encode ++ bs).drop (entrySize * i)) = dir[i] := by
  induction dir generalizing i with
  | nil => simp at hi
  | cons e dir ih =>
    have he := DirectoryEntry.length_encode (h e List.mem_cons_self)
    rw [encode, List.flatMap_cons, List.append_assoc]
    cases i with
    | zero => exact DirectoryEntry.decode_encode (h e List.mem_cons_self) _
    | succ i =>
      rw [List.drop_append, List.drop_of_length_le (by rw [he, Nat.mul_succ]; omega),
        List.nil_append, he, Nat.mul_succ, Nat.add_sub_cancel]
      exact ih (fun e' he => h e' (List.mem_cons_of_mem e he)) (by simpa using hi)

theorem decode_encode (h : dir.Valid) : decode dir.encode = dir := by
  refine List.ext_getElem (by simp [decode, h.length]) fun i hi hi' => ?_
  have := decode_drop h.full hi' []
  rw [List.append_nil] at this
  simpa [decode] using this

/-- What is read from the directory file is a table of the right size. -/
theorem valid_decode {bs : List Byte} (h : bs.length = entrySize * NumDirEntries) :
    (decode bs).Valid := by
  refine ⟨by simp [decode], fun e he => ?_⟩
  obtain ⟨i, hi, rfl⟩ := List.mem_map.mp he
  rw [List.mem_range] at hi
  simp only [DirectoryEntry.Full, DirectoryEntry.decode, List.length_take, List.length_drop, h]
  simp only [entrySize, NumDirEntries, FileNameMaxLen] at *
  omega

def fetchFrom (file : FileHeader) : Command Disk Directory := do
  let bs ← file.readAt (entrySize * NumDirEntries : ℕ) 0
  pure (decode bs)

def writeBack (dir : Directory) (file : FileHeader) (old : List Byte) : Command Disk ℕ :=
  file.writeAt dir.encode (entrySize * NumDirEntries : ℕ) 0 old

def findIndex (dir : Directory) (name : List Byte) : Option ℕ :=
  dir.findIdx? fun e => e.inUse && strncmpEq FileNameMaxLen e.name name

/-- `Find`: `-1` if the name is not there. -/
def find (dir : Directory) (name : List Byte) : BitVec 32 :=
  match dir.findIndex name with
  | some i => (dir.getD i ⟨false, 0, []⟩).sector
  | none => -1

/-- The entry that `Add` makes. -/
def added (name : List Byte) (newSector : BitVec 32) (e : DirectoryEntry) : DirectoryEntry :=
  ⟨true, newSector, strncpy e.name name FileNameMaxLen⟩

/-- `Add`: `none` when it returns `FALSE`. -/
def add (dir : Directory) (name : List Byte) (newSector : BitVec 32) : Option Directory :=
  if (dir.findIndex name).isSome then none
  else
    match dir.findIdx? fun e => !e.inUse with
    | some i => some (dir.modify i (added name newSector))
    | none => none

/-- `Remove`: `none` when it returns `FALSE`. -/
def remove (dir : Directory) (name : List Byte) : Option Directory :=
  match dir.findIndex name with
  | some i => some (dir.modify i fun e => { e with inUse := false })
  | none => none

/-- The name is that of an entry in use. -/
def Has (dir : Directory) (name : List Byte) : Prop :=
  ∃ e ∈ dir, e.inUse = true ∧ strncmpEq FileNameMaxLen e.name name = true

/-- The entry that is found is in use and has the name. -/
theorem findIndex_spec (h : dir.findIndex name = some i) : ∃ hi : i < dir.length,
    dir[i].inUse = true ∧ strncmpEq FileNameMaxLen dir[i].name name = true := by
  obtain ⟨hi, hp, -⟩ := List.findIdx?_eq_some_iff_getElem.mp h
  rw [Bool.and_eq_true] at hp
  exact ⟨hi, hp⟩

theorem has_of_findIndex (h : dir.findIndex name = some i) : dir.Has name := by
  obtain ⟨hi, hp⟩ := findIndex_spec h
  exact ⟨dir[i], List.getElem_mem hi, hp⟩

theorem findIndex_eq_none_iff : dir.findIndex name = none ↔ ¬dir.Has name := by
  rw [findIndex, List.findIdx?_eq_none_iff]
  constructor
  · rintro hnone ⟨e, he, hu, hname⟩
    simpa [hu, hname] using hnone e he
  · intro hnot e he
    by_contra hmatch
    simp only [Bool.not_eq_false, Bool.and_eq_true] at hmatch
    exact hnot ⟨e, he, hmatch⟩

theorem find_of_not_has (h : ¬dir.Has name) : dir.find name = -1 := by
  rw [find, findIndex_eq_none_iff.mpr h]

/-- `Find` fails only for a name that is not there. -/
theorem find_eq_neg_one_iff (hsector : ∀ e ∈ dir, e.inUse = true → e.sector ≠ -1) :
    dir.find name = -1 ↔ ¬dir.Has name := by
  cases hidx : dir.findIndex name with
  | none =>
    have hnot := findIndex_eq_none_iff.mp hidx
    exact iff_of_true (find_of_not_has hnot) hnot
  | some i =>
    obtain ⟨hi, hu, -⟩ := findIndex_spec hidx
    refine iff_of_false ?_ (not_not.mpr (has_of_findIndex hidx))
    rw [find, hidx]
    simp only [List.getD_eq_getElem _ _ hi]
    exact hsector _ (List.getElem_mem hi) hu

/-- `Add` fails for a name that is there, and when all entries are in use. -/
theorem add_eq_none_iff :
    dir.add name sector = none ↔ dir.Has name ∨ ∀ e ∈ dir, e.inUse = true := by
  rw [add]
  cases hidx : dir.findIndex name with
  | some i => exact iff_of_true rfl (.inl (has_of_findIndex hidx))
  | none =>
    have hnot := findIndex_eq_none_iff.mp hidx
    cases hfree : dir.findIdx? fun e => !e.inUse with
    | none =>
      have hfull := List.findIdx?_eq_none_iff.mp hfree
      exact iff_of_true rfl (.inr fun e he => by simpa using hfull e he)
    | some i =>
      obtain ⟨hi, hp, -⟩ := List.findIdx?_eq_some_iff_getElem.mp hfree
      refine iff_of_false nofun ?_
      rintro (hhas | hfull)
      · exact hnot hhas
      · simp [hfull _ (List.getElem_mem hi)] at hp

/-- The new name is found in the new entry. -/
theorem findIndex_added (hi : i < dir.length) (hnew : ¬dir.Has name) :
    findIndex (dir.modify i (added name sector)) name = some i := by
  rw [findIndex, List.findIdx?_eq_some_iff_getElem]
  refine ⟨by rwa [List.length_modify], ?_, fun j hj => ?_⟩
  · rw [List.getElem_modify_eq]
    simp only [added, strncmpEq_strncpy, Bool.true_and]
    simp [strncmpEq]
  · rw [List.getElem_modify_ne _ _ (by omega)]
    intro hmatch
    rw [Bool.and_eq_true] at hmatch
    exact hnew ⟨_, List.getElem_mem _, hmatch⟩

theorem find_added (hi : i < dir.length) (hnew : ¬dir.Has name) :
    find (dir.modify i (added name sector)) name = sector := by
  rw [find, findIndex_added hi hnew]
  simp only [List.getD_eq_getElem?_getD, List.getElem?_modify_eq, List.getElem?_eq_getElem hi]
  rfl

/-- All other names are found where they were. -/
theorem find_added_of_has {name' : List Byte} (hi : i < dir.length) (hunused : dir[i].inUse = false)
    (hnew : ¬dir.Has name) (hhas : dir.Has name') :
    find (dir.modify i (added name sector)) name' = dir.find name' := by
  cases hidx : dir.findIndex name' with
  | none => exact absurd hhas (findIndex_eq_none_iff.mp hidx)
  | some k =>
    obtain ⟨hk, hp, hfirst⟩ := List.findIdx?_eq_some_iff_getElem.mp hidx
    rw [Bool.and_eq_true] at hp
    have hne : i ≠ k := by
      rintro rfl
      simp [hunused] at hp
    have hidx' : findIndex (dir.modify i (added name sector)) name' = some k := by
      rw [findIndex, List.findIdx?_eq_some_iff_getElem]
      refine ⟨by rwa [List.length_modify], ?_, fun j hj => ?_⟩
      · rw [List.getElem_modify_ne _ _ hne, Bool.and_eq_true]
        exact hp
      · by_cases hij : i = j
        · subst hij
          rw [List.getElem_modify_eq]
          simp only [added, strncmpEq_strncpy, Bool.true_and]
          -- a name that compares equal to both would make the new one known
          intro hmatch
          rw [strncmpEq_comm] at hmatch
          exact hnew ⟨dir[k], List.getElem_mem hk, hp.1, strncmpEq_trans hp.2 hmatch⟩
        · rw [List.getElem_modify_ne _ _ hij]
          exact hfirst j hj
    rw [find, find, hidx, hidx']
    simp only [List.getD_eq_getElem?_getD, List.getElem?_modify_ne _ _ hne]

theorem mem_modify {f : DirectoryEntry → DirectoryEntry} {e : DirectoryEntry} (hi : i < dir.length)
    (he : e ∈ dir.modify i f) : e ∈ dir ∨ e = f dir[i] := by
  rw [List.modify_eq_take_cons_drop hi] at he
  rcases List.mem_append.mp he with he | he
  · exact .inl (List.mem_of_mem_take he)
  · rcases List.mem_cons.mp he with rfl | he
    · exact .inr rfl
    · exact .inl (List.mem_of_mem_drop he)

theorem Valid.modify (h : dir.Valid) (hi : i < dir.length) {f : DirectoryEntry → DirectoryEntry}
    (hf : ∀ e, e.Full → (f e).Full) : Valid (dir.modify i f) := by
  refine ⟨by rw [List.length_modify, h.length], fun e he => ?_⟩
  rcases mem_modify hi he with he | rfl
  · exact h.full e he
  · exact hf _ (h.full _ (List.getElem_mem hi))

theorem full_added {e : DirectoryEntry} (he : e.Full) : (added name sector e).Full := by
  have : FileNameMaxLen ≤ e.name.length := by
    rw [he]
    exact Nat.le_succ _
  exact (length_strncpy this).trans he

/-- `Add` takes an entry that is not in use. -/
theorem add_eq_some (h : dir.add name sector = some dir') : ∃ i, ∃ hi : i < dir.length,
    dir[i].inUse = false ∧ dir' = dir.modify i (added name sector) := by
  unfold add at h
  split at h
  · cases h
  · split at h
    · rename_i i hidx
      obtain ⟨hi, hp, -⟩ := List.findIdx?_eq_some_iff_getElem.mp hidx
      cases h
      exact ⟨i, hi, by simpa using hp, rfl⟩
    · cases h

/-- A name that is found has an entry in use. -/
theorem find_ne (h : dir.find name ≠ -1) : ∃ i, ∃ hi : i < dir.length, dir[i].inUse = true ∧
    dir.find name = dir[i].sector ∧
    dir.remove name = some (dir.modify i fun e => { e with inUse := false }) := by
  cases hidx : dir.findIndex name with
  | none => simp [find, hidx] at h
  | some i =>
    obtain ⟨hi, hu, -⟩ := findIndex_spec hidx
    refine ⟨i, hi, hu, ?_, ?_⟩
    · simp [find, hidx, List.getElem?_eq_getElem hi]
    · simp [remove, hidx]

end Directory

end Nachos.Filesys
