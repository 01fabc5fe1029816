import Nachos.Filesys.FileBytes
import Nachos.Filesys.FileSystem
import Nachos.Lib.BoundedMap

/-!
# The directory as a map

A table of any size stands for a map from names, cut off after `FileNameMaxLen` characters,
to sectors. Entries that are not in use may hold anything.
-/
namespace Nachos.Filesys

open Bytes (Byte overlay)
open BoundedMap (Update Lists Stands)

/-- The characters of a name that an entry has room for. -/
def truncated (name : List Byte) : List Byte := (name.takeWhile (· ≠ 0)).take FileNameMaxLen

theorem strncmpEq_iff {a b : List Byte} :
    strncmpEq FileNameMaxLen a b = true ↔ truncated a = truncated b := by
  rw [strncmpEq, beq_iff_eq, truncated, truncated, take_takeWhile, take_takeWhile]

namespace DirectoryEntry

/-- The name and the sector of an entry in use. -/
def held (e : DirectoryEntry) : Option (List Byte × BitVec 32) :=
  if e.inUse then some (truncated e.name, e.sector) else none

variable {e : DirectoryEntry} {k : List Byte} {s : BitVec 32}

theorem held_of_inUse (h : e.inUse = true) : e.held = some (truncated e.name, e.sector) := if_pos h

theorem held_of_unused (h : e.inUse = false) : e.held = none := by
  rw [held, h]
  rfl

theorem isSome_held : e.held.isSome = e.inUse := by
  cases h : e.inUse with
  | false => rw [held_of_unused h, Option.isSome_none]
  | true => rw [held_of_inUse h, Option.isSome_some]

theorem held_eq_some : e.held = some (k, s) ↔
    e.inUse = true ∧ truncated e.name = k ∧ e.sector = s := by
  cases h : e.inUse with
  | false => simp [held_of_unused h]
  | true => simp [held_of_inUse h]

end DirectoryEntry

namespace Directory

open DirectoryEntry (held)

variable {dir dir' table : Directory} {name k : List Byte} {sector s : BitVec 32} {i size : ℕ}
  {f : BoundedMap (List Byte) (BitVec 32) size} {file : FileHeader} {d : Disk}

/-- `new Directory(size)`, with what the new array held before. -/
def new (stale : List DirectoryEntry) : Directory := stale.map fun e => { e with inUse := false }

/-- A table with this number of entries, from its bytes. -/
def ofBytes (tableSize : ℕ) (bs : List Byte) : Directory :=
  (List.range tableSize).map fun i => DirectoryEntry.decode (bs.drop (entrySize * i))

/-- `FetchFrom` for any size: what is not read stays as it is. -/
def fetchTable (table : Directory) (file : FileHeader) : Command Disk Directory := do
  let bs ← file.readAt (entrySize * table.length : ℕ) 0
  pure (ofBytes table.length (overlay table.encode 0 bs))

/-- `WriteBack` for any size. -/
def writeTable (dir : Directory) (file : FileHeader) (old : List Byte) : Command Disk ℕ :=
  file.writeAt dir.encode (entrySize * dir.length : ℕ) 0 old

def step : Update (List Byte) (BitVec 32) → Directory → Option Directory
  | .add name newSector, dir => dir.add name newSector
  | .remove name, dir => dir.remove name

/-- The directory of the file system is such a table. -/
theorem newDirectory_eq_new (u : Uninitialized) : FileSystem.newDirectory u =
    new (ofBytes NumDirEntries ((u.table ++ List.replicate (entrySize * NumDirEntries) 0).take
      (entrySize * NumDirEntries))) := rfl

theorem writeTable_eq_writeBack (h : dir.Valid) (old : List Byte) :
    dir.writeTable file old = dir.writeBack file old := by
  rw [writeTable, writeBack, h.length]

theorem fetchTable_eq_fetchFrom (h : dir.Valid) (hp : file.Placed)
    (hroom : entrySize * NumDirEntries ≤ file.numBytes.toNat) :
    dir.fetchTable file d = fetchFrom file d := by
  have hlen : ((file.bytes d).take (entrySize * NumDirEntries)).length =
      entrySize * NumDirEntries := by
    rw [List.length_take, hp.length_bytes, Nat.min_eq_left hroom]
  have hread := hp.readAt (d := d) (entrySize * NumDirEntries : ℕ) 0
  rw [List.drop_zero, Int.toNat_natCast] at hread
  rw [fetchTable, fetchFrom, h.length, Command.bind_of_some hread, Command.bind_of_some hread,
    Bytes.overlay_zero, List.drop_of_length_le, List.append_nil]
  · rfl
  · rw [length_encode h.full, h.length, hlen]

/-! ## On disk -/

/-- The table is in the first bytes of what was written. -/
theorem ofBytes_encode (h : ∀ e ∈ dir, e.Full) (bs : List Byte) :
    ofBytes dir.length (dir.encode ++ bs) = dir := by
  refine List.ext_getElem (by simp [ofBytes]) fun i hi hi' => ?_
  simp only [ofBytes, List.getElem_map, List.getElem_range]
  exact decode_drop h hi' bs

/-- A table that fits in the file is read as it was written, over whatever was there. -/
theorem fetchTable_writeTable (h : ∀ e ∈ dir, e.Full) (hp : file.Placed)
    (hroom : entrySize * dir.length ≤ file.numBytes.toNat) (old : List Byte) :
    ∃ d', dir.writeTable file old d = some (entrySize * dir.length, d') ∧
      (∀ table : Directory, table.length = dir.length →
        table.fetchTable file d' = some (dir, d')) ∧
      ∀ s ∉ file.sectors, d' s = d s := by
  have hlen := length_encode h
  have hcount : min ((entrySize * dir.length : ℕ) : Int).toNat (file.numBytes.toNat - 0) =
      entrySize * dir.length := by
    rw [Int.toNat_natCast, Nat.sub_zero, Nat.min_eq_left hroom]
  obtain ⟨d', hrun, hbytes, hother⟩ := hp.writeAt (d := d) (entrySize * dir.length : ℕ) 0
    (hcount.trans hlen.symm).le old
  rw [hcount] at hrun hbytes
  rw [List.take_of_length_le hlen.le, Bytes.overlay_zero] at hbytes
  refine ⟨d', hrun, fun table htable => ?_, hother⟩
  have hread : file.readAt (entrySize * table.length : ℕ) 0 d' = some (dir.encode, d') := by
    rw [hp.readAt, hbytes, List.drop_zero, Int.toNat_natCast, htable, List.take_left' hlen]
  rw [fetchTable, Command.bind_of_some hread, Command.pure_apply, Bytes.overlay_zero, htable,
    ofBytes_encode h]

/-! ## What the table stands for -/

theorem has_iff : dir.Has name ↔ ∃ s, (truncated name, s) ∈ dir.filterMap held := by
  simp only [List.mem_filterMap, DirectoryEntry.held_eq_some, Has, strncmpEq_iff]
  constructor
  · rintro ⟨e, he, hu, hname⟩
    exact ⟨e.sector, e, he, hu, hname, rfl⟩
  · rintro ⟨s, e, he, hu, hname, -⟩
    exact ⟨e, he, hu, hname⟩

/-- The entry of a name. -/
theorem held_of_findIndex (h : dir.findIndex name = some i) :
    ∃ hi : i < dir.length, dir[i].held = some (truncated name, dir[i].sector) := by
  obtain ⟨hi, hu, hname⟩ := findIndex_spec h
  exact ⟨hi, DirectoryEntry.held_eq_some.mpr ⟨hu, strncmpEq_iff.mp hname, rfl⟩⟩

/-- The entries in use are those of the map. -/
structure Represents (dir : Directory) (f : BoundedMap (List Byte) (BitVec 32) size) : Prop where
  length : dir.length = size
  full : ∀ e ∈ dir, e.Full
  sectors : ∀ e ∈ dir, e.inUse = true → 0 ≤ e.sector.toInt
  lists : Lists (dir.filterMap held) f

namespace Represents

variable (h : dir.Represents f)

include h

theorem has_iff_get : dir.Has name ↔ f.get (truncated name) ≠ none := by
  rw [has_iff, Option.ne_none_iff_exists']
  exact exists_congr fun s => h.lists.mem _ s

theorem find_eq : dir.find name = (f.get (truncated name)).getD (-1) := by
  cases hidx : dir.findIndex name with
  | none =>
    have hnone : f.get (truncated name) = none := by
      by_contra hget
      exact findIndex_eq_none_iff.mp hidx (h.has_iff_get.mpr hget)
    rw [find, hidx, hnone]
    rfl
  | some i =>
    obtain ⟨hi, hheld⟩ := held_of_findIndex hidx
    have hget : f.get (truncated name) = some dir[i].sector :=
      (h.lists.mem _ _).mp (List.mem_filterMap.mpr ⟨_, List.getElem_mem hi, hheld⟩)
    rw [find, hidx, hget]
    simp [List.getElem?_eq_getElem hi]

/-- The sectors of the map are those of entries in use. -/
theorem get_nonneg (hget : f.get k = some s) : 0 ≤ s.toInt := by
  obtain ⟨e, he, hheld⟩ := List.mem_filterMap.mp ((h.lists.mem k s).mpr hget)
  obtain ⟨hu, -, rfl⟩ := DirectoryEntry.held_eq_some.mp hheld
  exact h.sectors e he hu

theorem card_eq_iff : f.card = size ↔ ∀ e ∈ dir, e.inUse = true := by
  have hcard := h.lists.card_eq_iff
  rw [h.length] at hcard
  simpa only [DirectoryEntry.isSome_held] using hcard

theorem add_eq_none_iff : dir.add name sector = none ↔ f.add (truncated name) sector = none := by
  rw [Directory.add_eq_none_iff, BoundedMap.add_eq_none_iff, h.has_iff_get, h.card_eq_iff]

theorem remove_eq_none_iff : dir.remove name = none ↔ f.remove (truncated name) = none := by
  rw [BoundedMap.remove_eq_none_iff, ← not_iff_not, ← ne_eq (f.get _), ← h.has_iff_get,
    ← not_iff_not, not_not, ← findIndex_eq_none_iff, remove]
  cases dir.findIndex name <;> simp

/-- No two entries in use have one name. -/
theorem distinct : dir.Pairwise fun e e' =>
    e.inUse = true → e'.inUse = true → truncated e.name ≠ truncated e'.name := by
  have hnodup := h.lists.nodup
  rw [List.Nodup, List.pairwise_map, List.pairwise_filterMap] at hnodup
  apply hnodup.imp
  intro e e' hne hu hu'
  exact hne _ (DirectoryEntry.held_of_inUse hu) _ (DirectoryEntry.held_of_inUse hu')

/-- An entry changes, and the map with it. -/
theorem modify {f' : BoundedMap (List Byte) (BitVec 32) size} {g : DirectoryEntry → DirectoryEntry}
    (hi : i < dir.length) (hfull : ∀ e : DirectoryEntry, e.Full → (g e).Full)
    (hsector : (g dir[i]).inUse = true → 0 ≤ (g dir[i]).sector.toInt)
    (hlists : Lists ((dir.modify i g).filterMap held) f') : Represents (dir.modify i g) f' where
  length := by rw [List.length_modify, h.length]
  full e he := by
    rcases mem_modify hi he with he | rfl
    · exact h.full e he
    · exact hfull _ (h.full _ (List.getElem_mem hi))
  sectors e he := by
    rcases mem_modify hi he with he | rfl
    · exact h.sectors e he
    · exact hsector
  lists := hlists

theorem add (hs : 0 ≤ sector.toInt) (hadd : dir.add name sector = some dir') :
    ∃ f', f.add (truncated name) sector = some f' ∧ dir'.Represents f' := by
  cases hf : f.add (truncated name) sector with
  | none =>
    rw [h.add_eq_none_iff.mpr hf] at hadd
    cases hadd
  | some f' =>
    obtain ⟨i, hi, hunused, rfl⟩ := add_eq_some hadd
    refine ⟨f', rfl, h.modify hi (fun e he => full_added he) (fun _ => hs) ?_⟩
    apply h.lists.fill hi (DirectoryEntry.held_of_unused hunused) _ hf
    -- the stale bytes behind the new name are of no use
    exact DirectoryEntry.held_eq_some.mpr
      ⟨rfl, strncmpEq_iff.mp ((strncmpEq_strncpy _ _ _ _).trans (by simp [strncmpEq])), rfl⟩

theorem remove (hremove : dir.remove name = some dir') :
    ∃ f', f.remove (truncated name) = some f' ∧ dir'.Represents f' := by
  cases hf : f.remove (truncated name) with
  | none =>
    rw [h.remove_eq_none_iff.mpr hf] at hremove
    cases hremove
  | some f' =>
    cases hidx : dir.findIndex name with
    | none => simp [Directory.remove, hidx] at hremove
    | some i =>
      obtain ⟨hi, hheld⟩ := held_of_findIndex hidx
      simp only [Directory.remove, hidx, Option.some.injEq] at hremove
      subst hremove
      refine ⟨f', rfl, h.modify hi (fun e he => he) (fun hu => absurd hu Bool.false_ne_true) ?_⟩
      exact h.lists.free hi hheld (DirectoryEntry.held_of_unused rfl) hf

/-- The table and the map refuse the same calls. -/
theorem step {c : Update (List Byte) (BitVec 32)}
    (hc : ∀ name sector, c = .add name sector → 0 ≤ sector.toInt) :
    Option.Rel (@Represents size) (dir.step c) (BoundedMap.step (c.mapKey truncated) f) := by
  cases c with
  | add name sector =>
    show Option.Rel _ (dir.add name sector) (f.add (truncated name) sector)
    cases hadd : dir.add name sector with
    | none =>
      rw [h.add_eq_none_iff.mp hadd]
      exact .none
    | some dir' =>
      obtain ⟨f', hf, hr⟩ := h.add (hc name sector rfl) hadd
      rw [hf]
      exact .some hr
  | remove name =>
    show Option.Rel _ (dir.remove name) (f.remove (truncated name))
    cases hremove : dir.remove name with
    | none =>
      rw [h.remove_eq_none_iff.mp hremove]
      exact .none
    | some dir' =>
      obtain ⟨f', hf, hr⟩ := h.remove hremove
      rw [hf]
      exact .some hr

end Represents

/-- A new table is empty, whatever the array held before. -/
theorem represents_new {stale : List DirectoryEntry} (hfull : ∀ e ∈ stale, e.Full) :
    (new stale).Represents (.empty (List Byte) (BitVec 32) stale.length) := by
  have hunused : ∀ e ∈ new stale, e.inUse = false := by
    intro e he
    obtain ⟨e', -, rfl⟩ := List.mem_map.mp he
    rfl
  have hnone : (new stale).filterMap held = [] := by
    rw [List.filterMap_eq_nil_iff]
    intro e he
    exact DirectoryEntry.held_of_unused (hunused e he)
  refine ⟨List.length_map _, fun e he => ?_, fun e he hu => ?_, ?_⟩
  · obtain ⟨e', he', rfl⟩ := List.mem_map.mp he
    exact hfull e' he'
  · rw [hunused e he] at hu
    cases hu
  · rw [hnone]
    exact BoundedMap.lists_empty

/-! ## Runs -/

/-- What a table answers, as the map `f` and the calls so far have it. -/
structure AsMap (dir : Directory) (f : BoundedMap (List Byte) (BitVec 32) size)
    (hist : List (Update (List Byte) (BitVec 32) × Bool)) : Prop where
  find : ∀ name, dir.find name = (f.get (truncated name)).getD (-1)
  last : ∀ name, (∃ s, Stands hist (truncated name) s ∧ 0 ≤ s.toInt ∧ dir.find name = s) ∨
    (∀ s, ¬Stands hist (truncated name) s) ∧ dir.find name = -1
  add : ∀ name s, dir.add name s = none ↔
    f.get (truncated name) ≠ none ∨ ∀ e ∈ dir, e.inUse = true
  remove : ∀ name, dir.remove name = none ↔ f.get (truncated name) = none
  distinct : dir.Pairwise fun e e' =>
    e.inUse = true → e'.inUse = true → truncated e.name ≠ truncated e'.name
  restored : ∀ (file : FileHeader) (d : Disk) (old : List Byte), file.Placed →
    entrySize * dir.length ≤ file.numBytes.toNat →
    ∃ d', dir.writeTable file old d = some (entrySize * dir.length, d') ∧
      ∀ table : Directory, table.length = dir.length → table.fetchTable file d' = some (dir, d')

theorem Represents.asMap (h : dir.Represents f)
    {hist : List (Update (List Byte) (BitVec 32) × Bool)}
    (hstands : ∀ k s, f.get k = some s ↔ Stands hist k s) : dir.AsMap f hist where
  find name := h.find_eq
  last name := by
    rw [h.find_eq]
    cases hget : f.get (truncated name) with
    | none =>
      refine .inr ⟨fun s hs => ?_, rfl⟩
      rw [(hstands _ s).mpr hs] at hget
      cases hget
    | some s => exact .inl ⟨s, (hstands _ s).mp hget, h.get_nonneg hget, rfl⟩
  add name s := by rw [Directory.add_eq_none_iff, h.has_iff_get]
  remove name := by rw [h.remove_eq_none_iff, BoundedMap.remove_eq_none_iff]
  distinct := h.distinct
  restored file d old hp hroom := by
    obtain ⟨d', hrun, hfetch, -⟩ := fetchTable_writeTable (d := d) h.full hp hroom old
    exact ⟨d', hrun, hfetch⟩

/-- However files are added and removed, the table is a map with room for as many names as
it has entries. -/
theorem refines_boundedMap {stale : List DirectoryEntry} (hfull : ∀ e ∈ stale, e.Full)
    {calls : List (Update (List Byte) (BitVec 32))}
    (hsectors : ∀ name sector, Update.add name sector ∈ calls → 0 ≤ sector.toInt) :
    let run := attempts step calls (new stale)
    let spec := attempts BoundedMap.step (calls.map (Update.mapKey truncated))
      (.empty (List Byte) (BitVec 32) stale.length)
    spec.1 = run.1.map (fun c => (c.1.mapKey truncated, c.2)) ∧ run.2.length = stale.length ∧
      run.2.AsMap spec.2 spec.1 := by
  intro run spec
  have hstep : ∀ c ∈ calls, ∀ (dir : Directory)
      (f : BoundedMap (List Byte) (BitVec 32) stale.length), dir.Represents f →
      Option.Rel Represents (dir.step c) (BoundedMap.step (c.mapKey truncated) f) := by
    intro c hc dir f h
    apply h.step
    rintro name sector rfl
    exact hsectors name sector hc
  obtain ⟨hhist, hend⟩ := attempts_refine hstep (represents_new hfull)
  exact ⟨hhist, hend.length, hend.asMap (BoundedMap.get_attempts _)⟩

/-- Names of ten characters in a table with one entry, over what it held before. -/
theorem refines_boundedMap_reused :
    let stale : List DirectoryEntry := [⟨true, 9, [120, 120, 120, 120, 120, 120, 120, 120, 120, 120]⟩]
    let calls : List (Update (List Byte) (BitVec 32)) :=
      [.add [97, 98, 99, 100, 101, 102, 103, 104, 105, 106] 5, .add [122] 6,
        .remove [97, 98, 99, 100, 101, 102, 103, 104, 105, 107], .add [122] 7]
    let run := attempts step calls (new stale)
    let spec := attempts BoundedMap.step (calls.map (Update.mapKey truncated))
      (.empty (List Byte) (BitVec 32) stale.length)
    run.1.map Prod.snd = [true, false, true, true] ∧ run.2.find [122] = 7 ∧
      spec.1 = run.1.map (fun c => (c.1.mapKey truncated, c.2)) ∧ run.2.length = stale.length ∧
      run.2.AsMap spec.2 spec.1 := by
  refine ⟨by decide, by decide, refines_boundedMap ?_ ?_⟩
  · intro e he
    rw [List.mem_singleton.mp he]
    rfl
  · intro name sector hmem
    simp only [List.mem_cons, Update.add.injEq, reduceCtorEq, List.not_mem_nil, or_false,
      false_or] at hmem
    rcases hmem with ⟨-, rfl⟩ | ⟨-, rfl⟩ | ⟨-, rfl⟩ <;> decide

end Directory

end Nachos.Filesys
