import Nachos.Filesys.NamedFiles

/-!
# The file system as a volume

The disk with its named files, and the files that are open, are a volume with handles. From
formatting on, whatever is called and however often Nachos is started again, the answers are those
of the volume.
-/
namespace Nachos.Filesys

open Bytes (Byte)

/-- The files that the constructor creates, and opens if they are there. -/
def console : List (List Byte) :=
  [truncated (FileSystem.chars "stdin"), truncated (FileSystem.chars "stdout")]

/-- What a call is for the volume. A new file may hold anything at first. -/
inductive Session.Request.Matches : Session.Request → Volume.Call (List Byte) → Prop
  | create {u name initialSize contents} (h : contents.length = initialSize.toNat) :
    Matches (.create u name initialSize) (.create (truncated name) contents)
  | remove {u name} : Matches (.remove u name) (.remove (truncated name))
  | openTyped {name type} : Matches (.openTyped name type) (.open' (truncated name))
  | access {a op} : Matches (.access a op) (.access a op.toAccess)
  | delete {a} : Matches (.delete a) (.close a)
  | restart {beside stdin stdout} : Matches (.restart beside stdin stdout) (.restart console)

/-- The files on the disk are those of the volume, and its handles are `OpenFile`s with their
headers. -/
structure Session.Shows (s : Session) (v : Volume (List Byte) NumDirEntries) : Prop where
  mounted : Mounted s.table.fs s.table.disk
  files : FilesOn s.table.fs s.table.disk v.files
  next : s.table.next = v.handles.length
  slots : ∀ i : ℕ, i < 13 → (s.table.openf (2 + i) = none ↔ v.handles.length ≤ i)
  handles : ∀ (a : ℕ) (h : Handle (List Byte)), v.handles[a]? = some (some h) →
    ∃ f, s.table.objects a = some f ∧ (s.seekPosition a).toInt = h.position ∧
      ∀ k, h.file = some k → ∃ e ∈ directoryOn s.table.fs s.table.disk, e.inUse = true ∧
        truncated e.name = k ∧ f.hdr = headerAt s.table.disk e.sector.toNat

/-! ## The table of open files -/

namespace FileTable

variable {t : FileTable} {name : List Byte} {type : BitVec 32} {n : ℕ} {hdr : FileHeader}

/-- The slots are taken in order. -/
theorem findFreeSlot_eq (hs : ∀ i : ℕ, i < 13 → (t.openf (2 + i) = none ↔ n ≤ i)) (hn : n < 13) :
    findFreeSlot t = some (2 + (n : Int), t) := by
  have hfree : t.freeSlot? = some (2 + n) := by
    rw [freeSlot?, List.find?_range'_eq_some]
    refine ⟨?_, by rw [List.mem_range'_1]; omega, fun j hj hlt => ?_⟩
    · have := (hs n hn).mpr le_rfl
      simpa using this
    · obtain ⟨i, rfl⟩ := Nat.exists_eq_add_of_le hj
      have := mt (hs i (by omega)).mp (by omega)
      simpa [Option.isSome_iff_ne_none] using this
  rw [findFreeSlot, hfree]
  rfl

/-- A new `OpenFile` in a slot. -/
def placed (t : FileTable) (slot : Int) (type : BitVec 32) (hdr : FileHeader) : FileTable :=
  { t with
    openf := Function.update t.openf slot (some t.next)
    objects := Function.update t.objects t.next (some ⟨hdr, some type⟩)
    next := t.next + 1
    opened := t.opened ++ [hdr] }

/-- `Open(name, type)` for a file that is there. -/
theorem openTyped_found (type : BitVec 32)
    (hs : ∀ i : ℕ, i < 13 → (t.openf (2 + i) = none ↔ n ≤ i)) (hn : n < 13)
    (hentry : t.entry name = some (some hdr)) :
    openTyped name type t = some (some t.next, t.placed (2 + n) type hdr) := by
  have hfind := find_eq_some_iff.mpr ⟨hentry, rfl⟩
  rw [openTyped, Command.bind_of_some (findFreeSlot_eq hs hn), Command.bind_of_some hfind]
  show some (Function.update t.openf (2 + n) (some t.next) (2 + n), t.placed _ _ _) = _
  rw [Function.update_self]

/-- `Open(name, type)` for one that is not. -/
theorem openTyped_missing (type : BitVec 32)
    (hs : ∀ i : ℕ, i < 13 → (t.openf (2 + i) = none ↔ n ≤ i))
    (hn : n < 13) (hentry : t.entry name = some none) :
    openTyped name type t = some (none, t) := by
  have hfind := find_eq_some_iff.mpr ⟨hentry, rfl⟩
  rw [openTyped, Command.bind_of_some (findFreeSlot_eq hs hn), Command.bind_of_some hfind]
  show some (t.openf (2 + n), t) = _
  rw [(hs n hn).mpr le_rfl]

/-- The header that `Open` finds. -/
theorem entry_of_files {f : BoundedMap (List Byte) (List Byte) NumDirEntries}
    (hm : Mounted t.fs t.disk) (h : FilesOn t.fs t.disk f) (name : List Byte) :
    (f.get (truncated name) = none ∧ t.entry name = some none) ∨
    ∃ bs, f.get (truncated name) = some bs ∧ ∃ e ∈ directoryOn t.fs t.disk, e.inUse = true ∧
      truncated e.name = truncated name ∧
      t.entry name = some (some (headerAt t.disk e.sector.toNat)) := by
  cases hget : f.get (truncated name) with
  | none =>
    have hnot : ¬(directoryOn t.fs t.disk).Has name := fun hhas => h.has_iff.mp hhas hget
    exact .inl ⟨rfl, (entry_of_mounted hm name).2 hnot⟩
  | some bs =>
    have hhas : (directoryOn t.fs t.disk).Has name := h.has_iff.mpr (by simp [hget])
    cases hidx : (directoryOn t.fs t.disk).findIndex name with
    | none => exact absurd hhas (Directory.findIndex_eq_none_iff.mp hidx)
    | some i =>
      obtain ⟨hi, hu, hname⟩ := Directory.findIndex_spec hidx
      have hfind : (directoryOn t.fs t.disk).find name = (directoryOn t.fs t.disk)[i].sector := by
        simp [Directory.find, hidx, List.getElem?_eq_getElem hi]
      refine .inr ⟨bs, rfl, _, List.getElem_mem hi, hu, strncmpEq_iff.mp hname, ?_⟩
      rw [entry, hm.open_spec, if_pos ((hm.find_nonneg_iff name).mpr hhas), hfind]
      rfl

end FileTable

/-! ## One call -/

namespace Session

open FileTable (entry_of_mounted)

variable {s : Session} {v v' : Volume (List Byte) NumDirEntries} {d' : Disk}

/-- Another disk, on which the files with handles are the same. -/
theorem Shows.on_disk (h : s.Shows v) (hm : Mounted s.table.fs d')
    (hf : FilesOn s.table.fs d' v'.files) (hlength : v'.handles.length = v.handles.length)
    (hh : ∀ (a : ℕ) (h' : Handle (List Byte)), v'.handles[a]? = some (some h') →
      ∃ h₀ : Handle (List Byte), v.handles[a]? = some (some h₀) ∧
      h₀.position = h'.position ∧ ∀ k, h'.file = some k → h₀.file = some k ∧
        ∀ e ∈ directoryOn s.table.fs s.table.disk, e.inUse = true → truncated e.name = k →
          Kept s.table.fs s.table.disk d' e) :
    Shows { s with table := { s.table with disk := d' } } v' where
  mounted := hm
  files := hf
  next := h.next.trans hlength.symm
  slots i hi := by
    rw [hlength]
    exact h.slots i hi
  handles a h' ha := by
    obtain ⟨h₀, ha₀, hpos, hfile⟩ := hh a h' ha
    obtain ⟨f, hf, hseek, hentry⟩ := h.handles a h₀ ha₀
    refine ⟨f, hf, hseek.trans hpos, fun k hk => ?_⟩
    obtain ⟨hk₀, hkept⟩ := hfile k hk
    obtain ⟨e, he, hu, hname, hhdr⟩ := hentry k hk₀
    obtain ⟨he', hheader⟩ := hkept e he hu hname
    exact ⟨e, he', hu, hname, hhdr.trans hheader.symm⟩

theorem Shows.create (h : s.Shows v) (u : Uninitialized) (name : List Byte)
    {initialSize : BitVec 32} (hsize : initialSize.toNat ≤ MaxFileSize) :
    ∃ bs s', bs.length = initialSize.toNat ∧
      onTable (FileTable.create u name initialSize) s =
        some ((v.add limits (truncated name) bs).isSome, s') ∧
      s'.Shows ((v.add limits (truncated name) bs).getD v) := by
  obtain ⟨bs, d', hlength, hrun, hm, hf, hkept⟩ := h.files.create h.mounted u name hsize
  refine ⟨bs, _, hlength, ?_, h.on_disk hm hf (by simp) fun a h' ha => ?_⟩
  · rw [onTable, FileTable.create, hrun]
    rfl
  · rw [Volume.handles_getD_add] at ha
    exact ⟨h', ha, rfl, fun k hk => ⟨hk, fun e he hu _ => hkept e he hu⟩⟩

theorem Shows.remove (h : s.Shows v) (u : Uninitialized) (name : List Byte) :
    ∃ s', onTable (FileTable.remove u name) s =
        some ((v.remove (truncated name)).isSome, s') ∧
      s'.Shows ((v.remove (truncated name)).getD v) := by
  obtain ⟨d', hrun, hm, hf, hkept⟩ := h.files.remove h.mounted u name
  refine ⟨{ s with table := { s.table with disk := d' } }, ?_, ?_⟩
  · rw [onTable, FileTable.remove, hrun]
    rfl
  · cases hv : v.remove (truncated name) with
    | none =>
      rw [hv] at hf
      exact h.on_disk hm hf rfl fun a h' ha =>
        ⟨h', ha, rfl, fun k hk => ⟨hk, fun e he hu _ => hkept e he hu (.inl hv)⟩⟩
    | some v' =>
      rw [hv] at hf
      obtain ⟨files, hfiles, rfl⟩ := Option.map_eq_some_iff.mp hv
      refine h.on_disk hm hf (List.length_map _) fun a h' ha => ?_
      rw [Option.getD_some, List.getElem?_map, Option.map_eq_some_iff] at ha
      obtain ⟨o, ho, hmap⟩ := ha
      obtain ⟨h₀, rfl, rfl⟩ := Option.map_eq_some_iff.mp hmap
      refine ⟨h₀, ho, ?_, fun k hk => ?_⟩
      · rw [Volume.forget]
        split <;> rfl
      · rw [Volume.forget] at hk
        split at hk
        · cases hk
        · rename_i hne
          refine ⟨hk, fun e he hu hname => hkept e he hu (.inr fun heq => hne ?_)⟩
          rw [hk, ← hname, heq]

theorem Shows.openTyped (h : s.Shows v) (hroom : v.handles.length < 13) (name : List Byte)
    (type : BitVec 32) : ∃ p s', Session.openTyped name type s = some (p, s') ∧
      (v.openFile (truncated name)).1 = .handle p ∧
      s'.Shows (v.openFile (truncated name)).2 ∧ s'.table.index = s.table.index ∧
      s'.seekPosition = Function.update s.seekPosition s.table.next 0 := by
  rcases FileTable.entry_of_files h.mounted h.files name with ⟨hget, hentry⟩ |
    ⟨bs, hget, e, he, hu, hname, hentry⟩
  · have hmissing := FileTable.openTyped_missing type h.slots hroom hentry
    rw [Volume.openFile, hget]
    refine ⟨none, { s with seekPosition := Function.update s.seekPosition s.table.next 0 },
      ?_, rfl, ⟨h.mounted, h.files, h.next, h.slots, fun a h' ha => ?_⟩, rfl, rfl⟩
    · rw [Session.openTyped, hmissing]
      rfl
    · have hlt : a < v.handles.length := (List.getElem?_eq_some_iff.mp ha).1
      have hne : a ≠ s.table.next := by
        rw [h.next]
        omega
      simp only [Function.update_of_ne hne]
      exact h.handles a h' ha
  · have hfound := FileTable.openTyped_found type h.slots hroom hentry
    rw [Volume.openFile, hget]
    refine ⟨some s.table.next, ⟨s.table.placed (2 + v.handles.length) type
      (headerAt s.table.disk e.sector.toNat), Function.update s.seekPosition s.table.next 0⟩, ?_,
      by rw [h.next]; rfl, ⟨h.mounted, h.files, ?_, ?_, ?_⟩, rfl, rfl⟩
    · rw [Session.openTyped, hfound]
      rfl
    · simp [FileTable.placed, h.next]
    · intro i hi
      simp only [Option.isSome_some, if_true, List.length_append, List.length_singleton,
        FileTable.placed]
      by_cases heq : i = v.handles.length
      · subst heq
        rw [Function.update_self]
        simp
      · rw [Function.update_of_ne (by omega), h.slots i hi]
        omega
    · intro a h' ha
      simp only [Option.isSome_some, if_true, List.getElem?_append] at ha
      split at ha
      · rename_i hlt
        have hne : a ≠ s.table.next := by
          rw [h.next]
          omega
        simp only [FileTable.placed, Function.update_of_ne hne]
        exact h.handles a h' ha
      · rename_i hge
        have hlt := (List.getElem?_eq_some_iff.mp ha).1
        rw [List.length_singleton] at hlt
        obtain rfl : a = s.table.next := by
          rw [h.next]
          omega
        rw [h.next, Nat.sub_self] at ha
        cases ha
        refine ⟨_, Function.update_self .., ?_, ?_⟩
        · simp only [Function.update_self]
          rfl
        · rintro k ⟨⟩
          exact ⟨e, he, hu, hname, rfl⟩

theorem Shows.access (h : s.Shows v) {a : ℕ} (op : FileRequest) {r : Reply}
    (hv : v.accessFile limits a op.toAccess = some (r, v')) :
    ∃ s', Session.access a op s = some (r, s') ∧ s'.Shows v' := by
  simp only [Volume.accessFile, Option.bind_eq_bind, Option.bind_eq_some_iff] at hv
  obtain ⟨h₀, ha, k, hk, bs, hget, ⟨r', c⟩, hrun, heq⟩ := hv
  cases heq
  have ha' : v.handles[a]? = some (some h₀) := by
    rwa [Option.join_eq_some_iff] at ha
  obtain ⟨f, hf, hseek, hentry⟩ := h.handles a h₀ ha'
  obtain ⟨e, he, hu, hname, hhdr⟩ := hentry k hk
  have hbytes : bs = f.hdr.bytes s.table.disk := by
    have hsame := h.files.get he hu
    rw [hname, hget, Option.some.injEq] at hsame
    rw [hsame, hhdr]
  obtain ⟨p', d', hop, hbytes', hpos', hother⟩ := FileRequest.run_spec
    (hhdr ▸ h.mounted.placed he hu) hbytes hseek hrun
  rw [hhdr] at hother hbytes'
  obtain ⟨hm, hfiles, hkept⟩ := h.files.written h.mounted he hu hother
  rw [hname, hbytes'] at hfiles
  refine ⟨⟨{ s.table with disk := d' }, Function.update s.seekPosition a p'⟩, ?_,
    hm, hfiles, ?_, ?_, ?_⟩
  · simp only [Session.access, hf, hop]
    rfl
  · simp [h.next]
  · intro i hi
    rw [List.length_set]
    exact h.slots i hi
  · intro b h' hb
    by_cases hba : b = a
    · subst hba
      rw [List.getElem?_set_self (List.getElem?_eq_some_iff.mp ha').1] at hb
      cases hb
      refine ⟨f, hf, by simpa using hpos', ?_⟩
      rintro k' ⟨⟩
      obtain ⟨he', hheader⟩ := hkept e he hu
      exact ⟨e, he', hu, hname, hhdr.trans hheader.symm⟩
    · rw [List.getElem?_set_ne (Ne.symm hba)] at hb
      obtain ⟨f', hf', hseek', hentry'⟩ := h.handles b h' hb
      refine ⟨f', hf', ?_, fun k' hk' => ?_⟩
      · simp only [Function.update_of_ne hba]
        exact hseek'
      · obtain ⟨e', he', hu', hname', hhdr'⟩ := hentry' k' hk'
        obtain ⟨hin, hheader⟩ := hkept e' he' hu'
        exact ⟨e', hin, hu', hname', hhdr'.trans hheader.symm⟩

theorem Shows.delete (h : s.Shows v) {a : ℕ} {h₀ : Handle (List Byte)}
    (ha : v.handles[a]? = some (some h₀)) : ∃ s', Session.delete a s = some ((), s') ∧
      s'.Shows { v with handles := v.handles.set a none } := by
  obtain ⟨f, hf, -, -⟩ := h.handles a h₀ ha
  refine ⟨{ s with table :=
      { s.table with objects := Function.update s.table.objects a none } }, ?_,
    h.mounted, h.files, ?_, ?_, ?_⟩
  · simp only [Session.delete, hf]
  · simp [h.next]
  · intro i hi
    rw [List.length_set]
    exact h.slots i hi
  · intro b h' hb
    by_cases hba : b = a
    · subst hba
      rw [List.getElem?_set_self (List.getElem?_eq_some_iff.mp ha).1] at hb
      cases hb
    · rw [List.getElem?_set_ne (Ne.symm hba)] at hb
      simp only [Function.update_of_ne hba]
      exact h.handles b h' hb

/-! ## Starting again -/

/-- A step of the constructor. -/
theorem Shows.openNext {t : FileTable} (h : Shows ⟨t, fun _ => 0⟩ v)
    (hindex : 0 ≤ t.index ∧ t.index < 2) (hroom : v.handles.length < 13) (name : List Byte)
    (type : BitVec 32) : ∃ t', FileTable.openNext name type t = some ((), t') ∧
      t'.index = t.index + 1 ∧ Shows ⟨t', fun _ => 0⟩ (v.openFile (truncated name)).2 := by
  obtain ⟨p, s', hopen, -, h', hindex', hseek⟩ := h.openTyped hroom name type
  obtain ⟨⟨p', t'⟩, hrun, heq⟩ := Option.map_eq_some_iff.mp hopen
  cases heq
  rw [Function.update_eq_self_iff.mpr rfl] at h'
  have hindex : t'.index = t.index := hindex'
  refine ⟨_, Command.bind_of_some hrun, by simp [hindex], h'.mounted, h'.files, h'.next, ?_,
    h'.handles⟩
  intro i hi
  simp only [Function.update_of_ne (show (2 + i : Int) ≠ t'.index by omega)]
  exact h'.slots i hi

/-- The same for a file of the console that is created. -/
theorem Shows.createEmpty {t : FileTable} (h : Shows ⟨t, fun _ => 0⟩ v) (u : Uninitialized)
    (name : List Byte) : ∃ ok t', FileTable.create u name 0 t = some (ok, t') ∧
      Shows ⟨t', fun _ => 0⟩ ((v.add limits (truncated name) []).getD v) := by
  obtain ⟨bs, s', hlength, hrun, h'⟩ := h.create u name
    (show (0 : BitVec 32).toNat ≤ MaxFileSize by decide)
  obtain rfl : bs = [] := List.eq_nil_of_length_eq_zero hlength
  obtain ⟨⟨ok, t'⟩, hcreate, heq⟩ := Option.map_eq_some_iff.mp hrun
  cases heq
  exact ⟨_, t', hcreate, h'⟩

/-- The end of the constructor. -/
theorem setUp_spec {fs : FileSystem} {d : Disk} (hm : Mounted fs d) (hf : FilesOn fs d v.files)
    (beside : Int → Option ℕ) (stdin stdout : Uninitialized) :
    ∃ t, FileTable.setUp stdin stdout (.empty fs d beside) = some ((), t) ∧
      Shows ⟨t, fun _ => 0⟩ (v.restart limits console) := by
  have h₀ : Shows ⟨.empty fs d beside, fun _ => 0⟩ { v with handles := [] } := by
    refine ⟨hm, hf, rfl, fun i hi => ?_, fun a h ha => by simp at ha⟩
    have hopenf : (FileTable.empty fs d beside).openf (2 + i) = none := if_pos (by omega)
    exact iff_of_true hopenf (Nat.zero_le i)
  obtain ⟨t₁, hrun₁, hindex₁, h₁⟩ := h₀.openNext ⟨le_rfl, show (0 : Int) < 2 by decide⟩
    (show 0 < 13 by decide) (FileSystem.chars "stdin") 2
  have hroom : _ ≤ 0 + 1 := Volume.length_openFile_le
    (v := { v with handles := [] }) (k := truncated (FileSystem.chars "stdin"))
  have hzero : (FileTable.empty fs d beside).index = 0 := rfl
  obtain ⟨t₂, hrun₂, -, h₂⟩ := h₁.openNext (by omega) (by omega) (FileSystem.chars "stdout") 3
  obtain ⟨ok₃, t₃, hrun₃, h₃⟩ := h₂.createEmpty stdin (FileSystem.chars "stdin")
  obtain ⟨ok₄, t₄, hrun₄, h₄⟩ := h₃.createEmpty stdout (FileSystem.chars "stdout")
  refine ⟨t₄, ?_, h₄⟩
  rw [FileTable.setUp, Command.bind_of_some hrun₁, Command.bind_of_some hrun₂,
    Command.bind_of_some hrun₃, Command.bind_of_some hrun₄]
  rfl

/-- The files of the file system are found again. -/
theorem mount_spec {fs : FileSystem} {d : Disk} (hm : Mounted fs d) :
    Boot.files .mount d = some (fs, d) := by
  rw [Boot.files, Command.bind_of_some (fetchFrom_spec (by decide)),
    Command.bind_of_some (fetchFrom_spec (by decide)), hm.freeMapFile, hm.directoryFile]
  rfl

theorem Shows.restart (h : s.Shows v) (beside : Int → Option ℕ) (stdin stdout : Uninitialized) :
    ∃ s', Session.restart beside stdin stdout s = some ((), s') ∧
      s'.Shows (v.restart limits console) := by
  obtain ⟨t, hrun, h'⟩ := setUp_spec h.mounted h.files beside stdin stdout
  refine ⟨⟨t, fun _ => 0⟩, ?_, h'⟩
  simp only [Session.restart, Initial.start, mount_spec h.mounted, hrun]
  rfl

/-- A call that has a meaning for the volume is answered so. -/
theorem Shows.step (h : s.Shows v) (c : Request) :
    (∀ k, c.Matches k → Volume.step limits k v = none) ∨ ∃ k a s' v', c.Matches k ∧
      c.run s = some (a, s') ∧ Volume.step limits k v = some (a, v') ∧ s'.Shows v' := by
  cases c with
  | create u name initialSize =>
    by_cases hsize : initialSize.toNat ≤ MaxFileSize
    · obtain ⟨bs, s', hlength, hrun, h'⟩ := h.create u name hsize
      refine .inr ⟨_, _, s', _, .create hlength, Command.bind_of_some hrun, ?_, h'⟩
      exact if_pos (hlength.trans_le hsize)
    · refine .inl fun k hk => ?_
      cases hk with
      | create hlength => exact if_neg (hlength ▸ hsize)
  | remove u name =>
    obtain ⟨s', hrun, h'⟩ := h.remove u name
    exact .inr ⟨_, _, s', _, .remove, Command.bind_of_some hrun, rfl, h'⟩
  | openTyped name type =>
    by_cases hroom : v.handles.length < 13
    · obtain ⟨p, s', hrun, hreply, h', -⟩ := h.openTyped hroom name type
      refine .inr ⟨_, .handle p, s', _, .openTyped, Command.bind_of_some hrun, ?_, h'⟩
      rw [← hreply]
      exact if_pos hroom
    · refine .inl fun k hk => ?_
      cases hk with
      | openTyped => exact if_neg hroom
  | access a op =>
    cases hv : v.accessFile limits a op.toAccess with
    | none =>
      refine .inl fun k hk => ?_
      cases hk with
      | access => exact hv
    | some r =>
      obtain ⟨s', hrun, h'⟩ := h.access op hv
      exact .inr ⟨_, r.1, s', r.2, .access, hrun, hv, h'⟩
  | delete a =>
    cases ha : (v.handles[a]?).join with
    | none =>
      refine .inl fun k hk => ?_
      cases hk with
      | delete => simp only [Volume.step, ha]
    | some h₀ =>
      obtain ⟨s', hrun, h'⟩ := h.delete (Option.join_eq_some_iff.mp ha)
      refine .inr ⟨_, .done true, s', _, .delete, Command.bind_of_some hrun, ?_, h'⟩
      simp only [Volume.step, ha]
  | restart beside stdin stdout =>
    obtain ⟨s', hrun, h'⟩ := h.restart beside stdin stdout
    exact .inr ⟨_, .done true, s', _, .restart, Command.bind_of_some hrun, rfl, h'⟩

/-- A formatted disk has the files of the console, and no others. -/
theorem shows_start (u stdin stdout : Uninitialized) (disk : Disk) (beside : Int → Option ℕ) :
    ∃ t, Initial.start ⟨.format u, disk, beside, stdin, stdout⟩ = some t ∧
      Shows ⟨t, fun _ => 0⟩ ((Volume.empty (List Byte) NumDirEntries).restart limits console) := by
  obtain ⟨fs, d, hformat, hsound, hempty, -⟩ := format_new u disk
  have hnone : (directoryOn fs d).filterMap (fileOn d) = [] := by
    rw [List.filterMap_eq_nil_iff, hsound.files.directoryOn_eq]
    intro e he
    exact fileOn_of_unused (hempty e he)
  have hfiles : FilesOn fs d (Volume.empty (List Byte) NumDirEntries).files := by
    rw [FilesOn, hnone]
    exact BoundedMap.lists_empty
  obtain ⟨t, hrun, h⟩ := setUp_spec hsound.mounted hfiles beside stdin stdout
  refine ⟨t, ?_, h⟩
  simp only [Initial.start, Boot.files, hformat, hrun]
  rfl

end Session

end Nachos.Filesys

namespace Nachos

open Filesys Session

/-- From formatting on, whatever is called, the file system and its open files answer like a
volume of named files, through every restart, up to the first call that has no meaning for the
volume. At the end the directory, the headers and the sectors hold the files of the volume, and
exactly the sectors that these files do not take are free. -/
theorem session_refines_volume (u stdin stdout : Uninitialized) (disk : Disk)
    (beside : Int → Option ℕ) (cs : List Request) :
    ∃ t done rest ks answers s v, Initial.start ⟨.format u, disk, beside, stdin, stdout⟩ = some t ∧
      cs = done ++ rest ∧ List.Forall₂ Request.Matches done ks ∧
      done.mapM Request.run ⟨t, fun _ => 0⟩ = some (answers, s) ∧
      ks.mapM (Volume.step limits)
        ((Volume.empty (List Bytes.Byte) NumDirEntries).restart limits console) =
          some (answers, v) ∧
      (∀ c ∈ rest.head?, ∀ k, c.Matches k → Volume.step limits k v = none) ∧ s.Shows v ∧
      (mapOn s.table.fs s.table.disk).numClear + v.used limits = 1020 := by
  obtain ⟨t, hstart, h₀⟩ := shows_start u stdin stdout disk beside
  obtain ⟨done, rest, ks, answers, s, v, hsim⟩ :=
    Command.mapM_simulate (R := Shows) (fun c _ _ h => h.step c) cs h₀
  exact ⟨t, done, rest, ks, answers, s, v, hstart, hsim.calls, hsim.matched, hsim.run,
    hsim.meaning, hsim.misuse, hsim.related,
    hsim.related.files.numClear hsim.related.mounted⟩

/-- What is written into a file is read from it later, through other calls and restarts up to the
first that has no meaning for the volume, as long as the file is not removed or written to. -/
theorem written_stays {s : Session} {v : Volume (List Bytes.Byte) NumDirEntries} (h : s.Shows v)
    {a : ℕ} {p : Int} {name bs : List Bytes.Byte}
    (ha : v.handles[a]? = some (some ⟨some (truncated name), p⟩))
    (hbs : v.files.get (truncated name) = some bs) (from' : List Bytes.Byte)
    (numBytes position : BitVec 32) (h0 : 0 ≤ position.toInt)
    (hsum : position.toInt + numBytes.toInt < 2 ^ 31)
    (hfrom : Access.granted bs numBytes.toInt position.toInt ≤ from'.length)
    (old : List Bytes.Byte) (cs : List Request) (type : BitVec 32) :
    let n := Access.granted bs numBytes.toInt position.toInt
    let v₁ : Volume (List Bytes.Byte) NumDirEntries := ⟨v.files.set (truncated name)
      (Bytes.overlay bs position.toInt.toNat (from'.take n)), v.handles⟩
    ∃ s₁, (Request.access a (.writeAt from' numBytes position old)).run s =
        some (.moved n [], s₁) ∧ s₁.Shows v₁ ∧
      ∃ done rest ks answers s₂ v₂, Command.Simulated Request.run (Volume.step limits)
        Request.Matches Shows cs s₁ v₁ done rest ks answers s₂ v₂ ∧
        (Volume.Sparing limits (truncated name) ks v₁ → v₂.handles.length < 13 →
          ∃ b s₃ s₄, (Request.openTyped name type).run s₂ = some (.handle (some b), s₃) ∧
            (Request.access b (.readAt numBytes position)).run s₃ =
              some (.moved n (from'.take n), s₄)) := by
  intro n v₁
  have hreplace : Access.replace limits.bound bs from' numBytes.toInt position.toInt =
      some (Bytes.overlay bs position.toInt.toNat (from'.take n)) := if_pos ⟨⟨h0, hsum⟩, hfrom⟩
  have hhandles : v.handles.set a (some ⟨some (truncated name), p⟩) = v.handles := by
    obtain ⟨hlt, hget⟩ := List.getElem?_eq_some_iff.mp ha
    rw [← hget, List.set_getElem_self]
  have hwrite : v.accessFile limits a (.writeAt from' numBytes.toInt position.toInt) =
      some (.moved n [], v₁) := by
    rw [Volume.accessFile_eq ha hbs, Access.run, hreplace]
    simp only [Option.map_some, hhandles]
    rfl
  have hget₁ : v₁.files.get (truncated name) =
      some (Bytes.overlay bs position.toInt.toNat (from'.take n)) := by
    rw [BoundedMap.get_set hbs, if_pos rfl]
  generalize Bytes.overlay bs position.toInt.toNat (from'.take n) = contents at *
  obtain ⟨s₁, hrun₁, h₁⟩ := h.access (.writeAt from' numBytes position old) hwrite
  obtain ⟨done, rest, ks, answers, s₂, v₂, hsim⟩ :=
    Command.mapM_simulate (R := Shows) (fun c _ _ h => h.step c) cs h₁
  refine ⟨s₁, hrun₁, h₁, done, rest, ks, answers, s₂, v₂, hsim, fun hsparing hroom => ?_⟩
  have hget₂ := Volume.get_run hsparing hsim.meaning hget₁
  obtain ⟨b, s₃, hopen, hreply, h₃, -⟩ := hsim.related.openTyped hroom name type
  rw [Volume.openFile_of_get hget₂] at hreply
  obtain rfl : b = some v₂.handles.length := by simpa using hreply.symm
  have hlength : (from'.take n).length = n := by rw [List.length_take]; omega
  have hdeliver : (Access.readAt numBytes.toInt position.toInt).run limits.bound
      ⟨contents, 0⟩ = some (.moved n (from'.take n), ⟨contents, 0⟩) := by
    rw [Access.run, Access.deliver_replace hreplace, Option.map_some, hlength]
  obtain ⟨v₄, hread⟩ := Volume.accessFile_openFile hget₂ hdeliver
  obtain ⟨s₄, hrun₄, -⟩ := h₃.access (.readAt numBytes position) hread
  exact ⟨_, s₃, s₄, Command.bind_of_some hopen, hrun₄⟩

/-- A file of ten bytes on a new disk. Two of them are written, and read after a restart. -/
theorem written_stays_restart : ∃ s s₁ s₂ s₃ s₄ answers b,
    (Request.access 0 (.writeAt [1, 2] 2 8 [])).run s = some (.moved 2 [], s₁) ∧
    [Request.restart (fun _ => none) noMemory noMemory].mapM Request.run s₁ =
      some (answers, s₂) ∧
    (Request.openTyped (FileSystem.chars "a") 0).run s₂ = some (.handle (some b), s₃) ∧
    (Request.access b (.readAt 2 8)).run s₃ = some (.moved 2 [1, 2], s₄) := by
  obtain ⟨t, -, h₀⟩ := shows_start noMemory noMemory noMemory (fun _ => sectorOf []) fun _ => none
  generalize hv₀ : (Volume.empty (List Bytes.Byte) NumDirEntries).restart limits console = v₀ at h₀
  obtain ⟨bs, s₀, hlength, -, h₁⟩ := h₀.create noMemory (FileSystem.chars "a")
    (show (10 : BitVec 32).toNat ≤ MaxFileSize by decide)
  obtain ⟨hused, hnew, hcard, hhandles⟩ : v₀.used limits = 2 ∧
      v₀.files.get (truncated (FileSystem.chars "a")) = none ∧ v₀.files.card = 2 ∧
      v₀.handles = [] := by
    subst hv₀
    exact ⟨by decide +kernel, by decide +kernel, by decide +kernel, rfl⟩
  -- there is room for the file
  obtain ⟨files, hadd⟩ : ∃ files,
      v₀.files.add (truncated (FileSystem.chars "a")) bs = some files := by
    rw [← Option.ne_none_iff_exists', ne_eq, BoundedMap.add_eq_none_iff, hnew, hcard]
    simp [NumDirEntries]
  have hcost : limits.cost bs.length = 2 := by
    rw [hlength]
    rfl
  have hv : v₀.add limits (truncated (FileSystem.chars "a")) bs = some ⟨files, []⟩ := by
    rw [Volume.add, hused, hcost, if_pos (by decide), hadd, ← hhandles]
    rfl
  rw [hv, Option.getD_some] at h₁
  have hget : files.get (truncated (FileSystem.chars "a")) = some bs := by
    rw [BoundedMap.get_add hadd, if_pos rfl]
  obtain ⟨p, s, -, -, h, -⟩ := h₁.openTyped (show 0 < 13 by decide) (FileSystem.chars "a") 0
  rw [Volume.openFile_of_get hget] at h
  obtain ⟨s₁, hwrite, h₁, done, rest, ks, answers, s₂, v₂, hsim, hread⟩ := written_stays h
    (a := 0) (p := 0) rfl hget [1, 2] 2 8 (by decide) (by decide) (by simp [Access.granted]) []
    [.restart (fun _ => none) noMemory noMemory] 0
  have hgranted : Access.granted bs (2 : BitVec 32).toInt (8 : BitVec 32).toInt = 2 := by
    rw [Access.granted, hlength]
    decide
  rw [hgranted] at hwrite hread
  obtain ⟨hcalls, hmatched, hrun, hmeaning, -, hmisuse⟩ := hsim
  cases done with
  | nil =>
    subst hcalls
    have hnone := hmisuse _ rfl _ .restart
    cases hnone
  | cons c done =>
    obtain ⟨rfl, hrest⟩ := List.cons.inj hcalls
    obtain ⟨rfl, rfl⟩ := List.append_eq_nil_iff.mp hrest.symm
    cases hmatched with
    | cons hone hnil =>
      cases hone
      cases hnil
      obtain ⟨r, v₃, hstep, hlast⟩ := Command.bind_eq_some.mp hmeaning
      cases hstep
      cases hlast
      obtain ⟨b, s₃, s₄, hopen, hdata⟩ := hread ⟨trivial, fun _ _ _ => trivial⟩
        ((Volume.length_restart_le console).trans_lt (by decide))
      exact ⟨s, s₁, s₂, s₃, s₄, _, b, hwrite, hrun, hopen, hdata⟩

end Nachos
