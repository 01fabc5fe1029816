import Nachos.Filesys.Session

/-!
# Named files

What is on the disk, seen from above: a map from names, cut off as the directory does it, to
lists of bytes, with room for ten names and 1020 sectors.
-/
namespace Nachos.Filesys

open Bytes (Byte overlay)
open BoundedMap (Lists)

/-- The limits of a disk, and of a word. Four sectors are those of the bitmap and the directory. -/
def limits : Limits where
  units := NumSectors - 4
  cost n := 1 + (n + (SectorSize - 1)) / SectorSize
  largest := MaxFileSize
  handles := 13
  bound := 2 ^ 31

/-- The name and the bytes of an entry in use. -/
def fileOn (d : Disk) (e : DirectoryEntry) : Option (List Byte × List Byte) :=
  e.held.map fun r => (r.1, (headerAt d r.2.toNat).bytes d)

/-- The files on the disk, as a map. -/
def FilesOn (fs : FileSystem) (d : Disk) (f : BoundedMap (List Byte) (List Byte) NumDirEntries) :
    Prop :=
  Lists ((directoryOn fs d).filterMap (fileOn d)) f

/-- A request, without the memory that is not initialised. -/
def FileRequest.toAccess : FileRequest → Access
  | seek position => .seek position.toInt
  | read numBytes => .read numBytes.toInt
  | write from' numBytes _ => .write from' numBytes.toInt
  | readAt numBytes position => .readAt numBytes.toInt position.toInt
  | writeAt from' numBytes position _ => .writeAt from' numBytes.toInt position.toInt
  | length => .length
  | getCurrentPos => .tell

/-! ## Requests for one file -/

section

variable {hdr : FileHeader} {d : Disk} {n p : BitVec 32} {c c' : Cursor} {r : Reply}

theorem transferred_eq (hp : hdr.Placed) (hpos : 0 ≤ p.toInt) :
    OpenFile.transferred hdr n p = Access.granted (hdr.bytes d) n.toInt p.toInt := by
  rw [← OpenFile.granted_eq hp, hp.granted_spec, Access.granted, hp.length_bytes,
    Word.toNat_toInt hpos]

/-- What a request moves is in the file, so it is small. -/
theorem transferred_le (hp : hdr.Placed) : OpenFile.transferred hdr n p ≤ 2 ^ 19 := by
  have := (OpenFile.size_bound hp).1
  rw [← OpenFile.granted_eq hp, hp.granted_spec]
  omega

theorem toInt_transferred (hp : hdr.Placed) :
    (BitVec.ofNat 32 (OpenFile.transferred hdr n p)).toInt = OpenFile.transferred hdr n p := by
  have := transferred_le (n := n) (p := p) hp
  exact Word.toInt_ofNat (by omega)

/-- The new position does not overflow either. -/
theorem toInt_moved (hpos : 0 ≤ p.toInt) (hsum : p.toInt + n.toInt < 2 ^ 31) :
    (p + BitVec.ofNat 32 (OpenFile.transferred hdr n p)).toInt =
      p.toInt + OpenFile.transferred hdr n p := by
  obtain ⟨hint, hlt⟩ := Word.toNat_of_nonneg hpos
  have hcases := Word.toInt_toNat n
  have hroom : p.toInt + OpenFile.transferred hdr n p < 2 ^ 31 := by
    rw [OpenFile.transferred]
    split <;> omega
  rw [Word.toInt_add_ofNat hpos hroom, hint]

/-- `ReadAt` delivers what is in the file. -/
theorem readAt_deliver (hp : hdr.Placed) {bs : List Byte}
    (h : Access.deliver limits.bound (hdr.bytes d) n.toInt p.toInt = some bs) :
    0 ≤ p.toInt ∧ p.toInt + n.toInt < 2 ^ 31 ∧ bs.length = OpenFile.transferred hdr n p ∧
      OpenFile.readAt hdr n p d =
        some ((BitVec.ofNat 32 (OpenFile.transferred hdr n p), bs), d) := by
  unfold Access.deliver at h
  split at h
  · rename_i hin
    obtain ⟨hpos, hsum⟩ := hin
    cases h
    have hlength : (((hdr.bytes d).drop p.toInt.toNat).take n.toInt.toNat).length =
        OpenFile.transferred hdr n p := by
      rw [transferred_eq (d := d) hp hpos, Access.granted, List.length_take, List.length_drop]
    refine ⟨hpos, hsum, hlength, ?_⟩
    rw [OpenFile.readAt_spec hp hpos fun _ => hsum, ← hlength, Word.toNat_toInt hpos]
    congr 3
    rw [List.take_eq_take_iff, List.length_take]
    omega
  · cases h

/-- `WriteAt` replaces it. -/
theorem writeAt_replace (hp : hdr.Placed) {from' contents : List Byte} (old : List Byte)
    (h : Access.replace limits.bound (hdr.bytes d) from' n.toInt p.toInt = some contents) :
    0 ≤ p.toInt ∧ p.toInt + n.toInt < 2 ^ 31 ∧ ∃ d', OpenFile.writeAt hdr from' n p old d =
        some (BitVec.ofNat 32 (OpenFile.transferred hdr n p), d') ∧
      hdr.bytes d' = contents ∧ ∀ s ∉ hdr.sectors, d' s = d s := by
  unfold Access.replace at h
  split at h
  · rename_i hin
    obtain ⟨⟨hpos, hsum⟩, hfrom⟩ := hin
    cases h
    have hcount : min n.toInt.toNat (hdr.numBytes.toNat - p.toNat) =
        OpenFile.transferred hdr n p := by
      rw [← hp.granted_spec, OpenFile.granted_eq hp]
    rw [← transferred_eq hp hpos] at hfrom ⊢
    obtain ⟨d', hrun, hbytes, hother⟩ := hp.writeAt (d := d) n.toInt p.toNat
      (hcount.trans_le hfrom) old
    rw [hcount] at hrun hbytes
    refine ⟨hpos, hsum, d', ?_, ?_, hother⟩
    · rw [OpenFile.writeAt_eq hp hpos hsum, hrun]
      rfl
    · rw [hbytes, Word.toNat_toInt hpos]
  · cases h

/-- A request that has a meaning for the bytes of a file is answered so, and changes only the
sectors of the file. -/
theorem FileRequest.run_spec (hp : hdr.Placed) {op : FileRequest} (hc : c.contents = hdr.bytes d)
    (hpos : p.toInt = c.position) (h : op.toAccess.run limits.bound c = some (r, c')) :
    ∃ p' d', op.run hdr p d = some ((r, p'), d') ∧ hdr.bytes d' = c'.contents ∧
      p'.toInt = c'.position ∧ ∀ s ∉ hdr.sectors, d' s = d s := by
  obtain ⟨contents, position⟩ := c
  subst hc hpos
  cases op with
  | seek position =>
    cases h
    exact ⟨position, d, rfl, rfl, rfl, fun _ _ => rfl⟩
  | read numBytes =>
    obtain ⟨bs, hbs, heq⟩ := Option.map_eq_some_iff.mp h
    cases heq
    obtain ⟨h0, hsum, hlength, hrun⟩ := readAt_deliver hp hbs
    have hread : OpenFile.read hdr p numBytes d = some
        (((BitVec.ofNat 32 (OpenFile.transferred hdr numBytes p), bs),
          p + BitVec.ofNat 32 (OpenFile.transferred hdr numBytes p)), d) :=
      Command.bind_of_some hrun
    refine ⟨p + BitVec.ofNat 32 (OpenFile.transferred hdr numBytes p), d, ?_, rfl, ?_,
      fun _ _ => rfl⟩
    · rw [FileRequest.run, Command.bind_of_some hread, Command.pure_apply, toInt_transferred hp,
        hlength]
    · rw [toInt_moved h0 hsum, hlength]
  | write from' numBytes old =>
    obtain ⟨bs, hbs, heq⟩ := Option.map_eq_some_iff.mp h
    cases heq
    obtain ⟨h0, hsum, d', hrun, hbytes, hother⟩ := writeAt_replace hp old hbs
    have hwrite : OpenFile.write hdr p from' numBytes old d = some
        ((BitVec.ofNat 32 (OpenFile.transferred hdr numBytes p),
          p + BitVec.ofNat 32 (OpenFile.transferred hdr numBytes p)), d') :=
      Command.bind_of_some hrun
    refine ⟨p + BitVec.ofNat 32 (OpenFile.transferred hdr numBytes p), d', ?_, hbytes, ?_, hother⟩
    · rw [FileRequest.run, Command.bind_of_some hwrite, Command.pure_apply, toInt_transferred hp,
        transferred_eq (d := d) hp h0]
    · rw [toInt_moved h0 hsum, transferred_eq (d := d) hp h0]
  | readAt numBytes position =>
    obtain ⟨bs, hbs, heq⟩ := Option.map_eq_some_iff.mp h
    cases heq
    obtain ⟨-, -, hlength, hrun⟩ := readAt_deliver hp hbs
    refine ⟨p, d, ?_, rfl, rfl, fun _ _ => rfl⟩
    rw [FileRequest.run, Command.bind_of_some hrun, Command.pure_apply, toInt_transferred hp,
      hlength]
  | writeAt from' numBytes position old =>
    obtain ⟨bs, hbs, heq⟩ := Option.map_eq_some_iff.mp h
    cases heq
    obtain ⟨h0, -, d', hrun, hbytes, hother⟩ := writeAt_replace hp old hbs
    refine ⟨p, d', ?_, hbytes, rfl, hother⟩
    rw [FileRequest.run, Command.bind_of_some hrun, Command.pure_apply, toInt_transferred hp,
      transferred_eq (d := d) hp h0]
  | length =>
    cases h
    refine ⟨p, d, ?_, rfl, rfl, fun _ _ => rfl⟩
    rw [FileRequest.run, FileHeader.fileLength, hp.toInt_numBytes, hp.length_bytes]
    rfl
  | getCurrentPos =>
    cases h
    exact ⟨p, d, rfl, rfl, rfl, fun _ _ => rfl⟩

end

/-! ## The files in the directory -/

section

variable {fs : FileSystem} {d d' : Disk} {e : DirectoryEntry} {dir : Directory} {u : Uninitialized}
  {name k bs : List Byte} {f : BoundedMap (List Byte) (List Byte) NumDirEntries}
  {v : Volume (List Byte) NumDirEntries}

theorem fileOn_of_inUse (hu : e.inUse = true) :
    fileOn d e = some (truncated e.name, (headerAt d e.sector.toNat).bytes d) := by
  rw [fileOn, DirectoryEntry.held_of_inUse hu]
  rfl

theorem fileOn_of_unused (hu : e.inUse = false) : fileOn d e = none := by
  rw [fileOn, DirectoryEntry.held_of_unused hu]
  rfl

theorem fileOn_eq_some : fileOn d e = some (k, bs) ↔
    e.inUse = true ∧ truncated e.name = k ∧ (headerAt d e.sector.toNat).bytes d = bs := by
  cases hu : e.inUse with
  | false => simp [fileOn_of_unused hu]
  | true => simp [fileOn_of_inUse hu]

theorem isSome_fileOn : (fileOn d e).isSome = e.inUse := by
  rw [fileOn, Option.isSome_map, DirectoryEntry.isSome_held]

/-- A file is the same if its header and its sectors are. -/
theorem fileOn_congr (h : ∀ s ∈ owned d e, d' s = d s) : fileOn d' e = fileOn d e := by
  cases hu : e.inUse with
  | false => rw [fileOn_of_unused hu, fileOn_of_unused hu]
  | true =>
    have howned : owned d e = e.sector.toNat :: (headerAt d e.sector.toNat).sectors := if_pos hu
    rw [howned] at h
    have hheader : headerAt d' e.sector.toNat = headerAt d e.sector.toNat := by
      rw [headerAt, headerAt, h _ List.mem_cons_self]
    rw [fileOn_of_inUse hu, fileOn_of_inUse hu, hheader,
      FileHeader.bytes_congr fun s hs => h s (List.mem_cons_of_mem _ hs)]

/-- The files are still there, and where they were. -/
def Kept (fs : FileSystem) (d d' : Disk) (e : DirectoryEntry) : Prop :=
  e ∈ directoryOn fs d' ∧ headerAt d' e.sector.toNat = headerAt d e.sector.toNat

theorem FilesOn.get (h : FilesOn fs d f) (he : e ∈ directoryOn fs d) (hu : e.inUse = true) :
    f.get (truncated e.name) = some ((headerAt d e.sector.toNat).bytes d) :=
  (h.mem _ _).mp (List.mem_filterMap.mpr ⟨e, he, fileOn_of_inUse hu⟩)

theorem FilesOn.entry (h : FilesOn fs d f) (hget : f.get k = some bs) :
    ∃ e ∈ directoryOn fs d, e.inUse = true ∧ truncated e.name = k ∧
      (headerAt d e.sector.toNat).bytes d = bs := by
  obtain ⟨e, he, hfile⟩ := List.mem_filterMap.mp ((h.mem k bs).mpr hget)
  exact ⟨e, he, fileOn_eq_some.mp hfile⟩

/-- Names are those of one entry only. -/
theorem FilesOn.unique (h : FilesOn fs d f) {i j : ℕ} (hi : i < (directoryOn fs d).length)
    (hj : j < (directoryOn fs d).length) (hui : (directoryOn fs d)[i].inUse = true)
    (huj : (directoryOn fs d)[j].inUse = true)
    (hname : truncated (directoryOn fs d)[i].name = truncated (directoryOn fs d)[j].name) :
    i = j := by
  have hnodup := h.nodup
  rw [List.Nodup, List.pairwise_map, List.pairwise_filterMap, List.pairwise_iff_getElem] at hnodup
  rcases lt_trichotomy i j with hlt | heq | hgt
  · exact absurd hname (hnodup i j hi hj hlt _ (fileOn_of_inUse hui) _ (fileOn_of_inUse huj))
  · exact heq
  · exact absurd hname.symm
      (hnodup j i hj hi hgt _ (fileOn_of_inUse huj) _ (fileOn_of_inUse hui))

theorem FilesOn.has_iff (h : FilesOn fs d f) :
    (directoryOn fs d).Has name ↔ f.get (truncated name) ≠ none := by
  rw [Option.ne_none_iff_exists']
  constructor
  · rintro ⟨e, he, hu, hname⟩
    exact ⟨_, strncmpEq_iff.mp hname ▸ h.get he hu⟩
  · rintro ⟨bs, hget⟩
    obtain ⟨e, he, hu, hname, -⟩ := h.entry hget
    exact ⟨e, he, hu, strncmpEq_iff.mpr hname⟩

theorem FilesOn.card_eq_iff (hm : Mounted fs d) (h : FilesOn fs d f) :
    f.card = NumDirEntries ↔ ∀ e ∈ directoryOn fs d, e.inUse = true := by
  have hcard := Lists.card_eq_iff h
  rw [hm.valid_directory.length] at hcard
  simpa only [isSome_fileOn] using hcard

/-- What the files take. -/
theorem length_owned (dir : Directory)
    (hdir : ∀ e ∈ dir, e.inUse = true → (headerAt d e.sector.toNat).Valid ∧
      (headerAt d e.sector.toNat).Placed) :
    (dir.flatMap (owned d)).length =
      ((dir.filterMap (fileOn d)).map fun e => limits.cost e.2.length).sum := by
  induction dir with
  | nil => rfl
  | cons e dir ih =>
    have hrest := ih fun e' he' => hdir e' (List.mem_cons_of_mem e he')
    rw [List.flatMap_cons, List.length_append, hrest]
    cases hu : e.inUse with
    | false =>
      rw [List.filterMap_cons_none (fileOn_of_unused hu)]
      simp [owned, hu]
    | true =>
      obtain ⟨hvalid, hplaced⟩ := hdir e List.mem_cons_self hu
      rw [List.filterMap_cons_some (fileOn_of_inUse hu), List.map_cons, List.sum_cons,
        hplaced.length_bytes]
      simp only [owned, hu, if_true, List.length_cons, hvalid.length_sectors, limits, SectorSize]
      omega

/-- The sectors that no file takes are free. -/
theorem FilesOn.numClear (hm : Mounted fs d) (h : FilesOn fs d f) :
    (mapOn fs d).numClear + f.total (fun bs => limits.cost bs.length) = limits.units := by
  have hsum := hm.numClear_add
  have hmap : fs.freeMapFile.sectors.length = 1 := by
    have hvalid := hm.consistent.freeMapHeader
    rw [hm.freeMapFile] at hvalid
    rw [hvalid.length_sectors, hm.mapSize]
    rfl
  have hdir : fs.directoryFile.sectors.length = 1 := by
    have hvalid := hm.consistent.directoryHeader
    rw [hm.directoryFile] at hvalid
    rw [hvalid.length_sectors, hm.dirSize]
    rfl
  have howned := length_owned (d := d) (directoryOn fs d) fun e he hu =>
    ⟨hm.consistent.headers e he hu, hm.placed he hu⟩
  rw [hm.used_eq, List.length_append, List.length_append, List.length_append, hmap, hdir, howned,
    ← h.total fun bs => limits.cost bs.length] at hsum
  simp only [limits, NumSectors, List.length_cons, List.length_nil] at hsum ⊢
  omega

/-- There is room for a file exactly if the volume has it. -/
theorem FilesOn.hasRoom_iff (hm : Mounted fs d) (h : FilesOn fs d v.files)
    {initialSize : BitVec 32} (hlength : bs.length = initialSize.toNat) :
    HasRoom fs d name initialSize ↔ (v.add limits (truncated name) bs).isSome = true := by
  have hclear := h.numClear hm
  have hcost : limits.cost bs.length =
      1 + (initialSize.toNat + (SectorSize - 1)) / SectorSize := by rw [hlength]; rfl
  have hentry : (∃ e ∈ directoryOn fs d, e.inUse = false) ↔ v.files.card ≠ NumDirEntries := by
    rw [ne_eq, h.card_eq_iff hm]
    push Not
    simp only [ne_eq, Bool.not_eq_true]
  have hadd : v.files.add (truncated name) bs = none ↔
      v.files.get (truncated name) ≠ none ∨ v.files.card = NumDirEntries :=
    BoundedMap.add_eq_none_iff
  rw [Volume.add, Volume.used, hcost]
  constructor
  · rintro ⟨hnew, hfree, hsectors⟩
    rw [if_pos (by omega), Option.isSome_map, ← Option.ne_none_iff_isSome, ne_eq, hadd]
    rintro (hget | hcard)
    · exact hnew (h.has_iff.mpr hget)
    · exact hentry.mp hfree hcard
  · intro hsome
    split at hsome
    · rename_i hroom
      rw [Option.isSome_map, ← Option.ne_none_iff_isSome, ne_eq, hadd, not_or] at hsome
      exact ⟨fun hhas => hsome.1 (h.has_iff.mp hhas), hentry.mpr hsome.2, by omega⟩
    · cases hsome

/-- A file that is not touched by a change of the directory. -/
theorem fileOn_spared (hm : Mounted fs d) (hk : Spared fs d d') (he : e ∈ directoryOn fs d) :
    fileOn d' e = fileOn d e := fileOn_congr fun _ hs => hm.owned_spared hk he hs

/-- The other entries, when one has changed. -/
theorem kept_of_modify (hm : Mounted fs d) (hk : Spared fs d d') {i : ℕ}
    {g : DirectoryEntry → DirectoryEntry}
    (hdir : directoryOn fs d' = (directoryOn fs d).modify i g) {j : ℕ}
    (hj : j < (directoryOn fs d).length) (hne : i ≠ j)
    (hu : (directoryOn fs d)[j].inUse = true) : Kept fs d d' (directoryOn fs d)[j] := by
  constructor
  · rw [hdir, List.mem_iff_getElem]
    exact ⟨j, by rwa [List.length_modify], List.getElem_modify_ne _ _ hne _⟩
  · rw [headerAt, headerAt, hm.header_spared hk (List.getElem_mem hj) hu]

/-- The name of a new entry, over the name that was there. -/
theorem truncated_added (name : List Byte) (s : BitVec 32) (e : DirectoryEntry) :
    truncated (Directory.added name s e).name = truncated name :=
  strncmpEq_iff.mp ((strncmpEq_strncpy _ _ _ _).trans (by simp [strncmpEq]))

/-- `Create` is a new file in the volume, with the bytes that its sectors had before. -/
theorem FilesOn.create (hm : Mounted fs d) (h : FilesOn fs d v.files) (u : Uninitialized)
    (name : List Byte) {initialSize : BitVec 32} (hsize : initialSize.toNat ≤ MaxFileSize) :
    ∃ bs d', bs.length = initialSize.toNat ∧
      fs.create u name initialSize d =
        some ((v.add limits (truncated name) bs).isSome, d') ∧ Mounted fs d' ∧
      FilesOn fs d' ((v.add limits (truncated name) bs).getD v).files ∧
      ∀ e ∈ directoryOn fs d, e.inUse = true → Kept fs d d' e := by
  rcases hm.served.create_branches u name (FileHeader.small_of_le hsize) with ⟨hlack, hrun⟩ |
    ⟨hroom, s, i, hi, hdr, map, hs, hfree, -, hunused, -, ha, hcreate⟩
  · have hlength : (List.replicate initialSize.toNat (0 : Byte)).length = initialSize.toNat :=
      List.length_replicate
    have hnone := mt (h.hasRoom_iff hm hlength).mpr hlack
    rw [Option.not_isSome_iff_eq_none] at hnone
    refine ⟨_, d, hlength, ?_, hm, ?_, fun e he _ => ⟨he, rfl⟩⟩
    · rw [hnone]
      exact hrun
    · rw [hnone]
      exact h
  · have hnat : (BitVec.ofNat 32 s).toNat = s := toNat_sector hs
    obtain ⟨d', hrun, hm', hspared, hheader, hdir⟩ := hm.createIn_run (u := u)
      (hnat.symm ▸ hs) (hnat.symm ▸ hfree) hi hunused name hsize (hnat.symm ▸ ha)
    rw [hnat] at hrun hheader
    have hmem : Directory.added name (BitVec.ofNat 32 s) (directoryOn fs d)[i] ∈
        directoryOn fs d' := by
      rw [hdir, List.mem_iff_getElem]
      exact ⟨i, by rwa [List.length_modify], List.getElem_modify_eq ..⟩
    have hplaced := hm'.placed hmem rfl
    have hlength : (hdr.bytes d').length = initialSize.toNat := by
      simp only [Directory.added, hnat, hheader] at hplaced
      rw [hplaced.length_bytes, FileHeader.numBytes_allocate ha]
    have hsome := (h.hasRoom_iff hm hlength).mp hroom
    refine ⟨hdr.bytes d', d', hlength, ?_, hm', ?_, ?_⟩
    · rw [hsome]
      exact hcreate.trans hrun
    · obtain ⟨v', hv'⟩ := Option.isSome_iff_exists.mp hsome
      rw [hv', Option.getD_some]
      rw [Volume.add] at hv'
      split at hv'
      · obtain ⟨files, hadd, rfl⟩ := Option.map_eq_some_iff.mp hv'
        have hsame : Lists ((directoryOn fs d).filterMap (fileOn d')) v.files := by
          rw [List.filterMap_congr fun e he => fileOn_spared hm hspared he]
          exact h
        rw [FilesOn, hdir]
        apply hsame.fill hi (fileOn_of_unused hunused) _ hadd
        rw [fileOn_of_inUse rfl, truncated_added, Directory.added, hnat, hheader]
      · cases hv'
    · intro e he hu
      obtain ⟨j, hj, rfl⟩ := List.getElem_of_mem he
      apply kept_of_modify hm hspared hdir hj _ hu
      rintro rfl
      rw [hunused] at hu
      cases hu

/-- `Remove` takes a file away. -/
theorem FilesOn.remove (hm : Mounted fs d) (h : FilesOn fs d v.files) (u : Uninitialized)
    (name : List Byte) : ∃ d', fs.remove u name d =
        some ((v.remove (truncated name)).isSome, d') ∧ Mounted fs d' ∧
      FilesOn fs d' ((v.remove (truncated name)).getD v).files ∧
      ∀ e ∈ directoryOn fs d, e.inUse = true →
        (v.remove (truncated name) = none ∨ truncated e.name ≠ truncated name) →
        Kept fs d d' e := by
  rcases hm.remove_cases u name with ⟨hnot, hrun⟩ |
    ⟨i, hi, hu, hname, d', hrun, hm', hspared, hdir⟩
  · have hnone : v.remove (truncated name) = none := by
      rw [Volume.remove, Option.map_eq_none_iff, BoundedMap.remove_eq_none_iff]
      exact not_not.mp (mt h.has_iff.mpr hnot)
    rw [hnone]
    exact ⟨d, hrun, hm, h, fun e he _ _ => ⟨he, rfl⟩⟩
  · have hhas : (directoryOn fs d).Has name := ⟨_, List.getElem_mem hi, hu, hname⟩
    have hget := h.has_iff.mp hhas
    rw [ne_eq, ← BoundedMap.remove_eq_none_iff, ← ne_eq, Option.ne_none_iff_exists'] at hget
    obtain ⟨files, hremove⟩ := hget
    have hsome : v.remove (truncated name) =
        some ⟨files, v.handles.map (Option.map (Volume.forget (truncated name)))⟩ := by
      rw [Volume.remove, hremove]
      rfl
    have hkey := strncmpEq_iff.mp hname
    rw [hsome]
    refine ⟨d', hrun, hm', ?_, ?_⟩
    · have hsame : Lists ((directoryOn fs d).filterMap (fileOn d')) v.files := by
        rw [List.filterMap_congr fun e he => fileOn_spared hm hspared he]
        exact h
      rw [FilesOn, hdir]
      exact hsame.free hi (hkey ▸ fileOn_of_inUse hu) (fileOn_of_unused rfl) hremove
    · intro e he hue hcase
      obtain ⟨j, hj, rfl⟩ := List.getElem_of_mem he
      apply kept_of_modify hm hspared hdir hj _ hue
      rintro rfl
      rcases hcase with hnone | hne
      · cases hnone
      · exact hne hkey

/-- What is written into one file changes this file, and no other. -/
theorem FilesOn.written (hm : Mounted fs d) (h : FilesOn fs d f) (he : e ∈ directoryOn fs d)
    (hu : e.inUse = true)
    (hother : ∀ s ∉ (headerAt d e.sector.toNat).sectors, d' s = d s) :
    Mounted fs d' ∧
      FilesOn fs d' (f.set (truncated e.name) ((headerAt d e.sector.toNat).bytes d')) ∧
      ∀ e' ∈ directoryOn fs d, e'.inUse = true → Kept fs d d' e' := by
  obtain ⟨hm', hdir, hheader, hothers⟩ := hm.written he hu hother
  refine ⟨hm', ?_, fun e' he' hu' => ⟨hdir ▸ he', ?_⟩⟩
  · rw [FilesOn, hdir]
    refine Lists.replace h (h.get he hu) fun e' he' => ?_
    cases hu' : e'.inUse with
    | false =>
      rw [fileOn_of_unused hu', fileOn_of_unused hu']
      rfl
    | true =>
      by_cases heq : e' = e
      · subst heq
        rw [fileOn_of_inUse hu', fileOn_of_inUse hu', headerAt, hheader e' he' hu']
        simp only [Option.map_some, if_true]
        rfl
      · have hne : truncated e'.name ≠ truncated e.name := by
          intro hname
          obtain ⟨i, hi, rfl⟩ := List.getElem_of_mem he'
          obtain ⟨j, hj, rfl⟩ := List.getElem_of_mem he
          obtain rfl := h.unique hi hj hu' hu hname
          exact heq rfl
        rw [fileOn_congr (hothers e' he' heq), fileOn_of_inUse hu', Option.map_some, if_neg hne]
  · rw [headerAt, headerAt, hheader e' he' hu']

end

end Nachos.Filesys
