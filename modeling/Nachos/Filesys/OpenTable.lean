import Nachos.Filesys.Consistency

/-!
# The table of open files

`class FileSystem` of the `FILESYS` build with `openf` and `index`: the constructor and both
functions `Open`. A slot holds a pointer to an `OpenFile`; `new` gives numbers to the objects.
-/
namespace Nachos.Filesys

open Bytes (Byte)

/-- An `OpenFile`. `OpenFile(sector)` leaves the type unset. -/
structure FileObject where
  hdr : FileHeader
  type : Option (BitVec 32)

/-- `openf` has the slots `0` to `14`; what is found beside them is left open. The headers of the
files that `Open(name, type)` has opened are only noted, in `opened`. -/
structure FileTable where
  fs : FileSystem
  disk : Disk
  openf : Int → Option ℕ
  objects : ℕ → Option FileObject
  next : ℕ
  index : Int
  opened : List FileHeader

namespace FileTable

variable {t t' : FileTable} {name : List Byte} {type : BitVec 32} {i : ℕ} {a : ℕ}
  {hdr : FileHeader} {o : Option FileHeader}

/-- `new OpenFile(sector)` and `new OpenFile(sector, type)`. -/
def new (hdr : FileHeader) (type : Option (BitVec 32)) : Command FileTable ℕ := fun t =>
  some (t.next,
    { t with objects := Function.update t.objects t.next (some ⟨hdr, type⟩), next := t.next + 1 })

/-- `openf[slot] = p`. -/
def store (slot : Int) (p : Option ℕ) : Command FileTable Unit := fun t =>
  some ((), { t with openf := Function.update t.openf slot p })

/-- The first free slot behind those of the console. -/
def freeSlot? (t : FileTable) : Option ℕ :=
  (List.range' 2 13).find? fun i => (t.openf i).isNone

/-- `FindFreeSlot`. -/
def findFreeSlot : Command FileTable Int := fun t =>
  some (match t.freeSlot? with | some i => i | none => -1, t)

/-- The part of both `Open` that is about the disk. -/
def find (name : List Byte) : Command FileTable (Option FileHeader) := fun t =>
  (t.fs.open' name t.disk).map fun r => (r.1, { t with disk := r.2 })

/-- The new object of `Open(name)`. -/
def newObject : Option FileHeader → Command FileTable Unit
  | some hdr => do
    let _ ← new hdr none
    pure ()
  | none => pure ()

/-- `Open(name)`. -/
def openNamed (name : List Byte) : Command FileTable (Option ℕ) := do
  let hdr ← find name
  newObject hdr
  fun t =>
    let t := { t with index := t.index + 1 }
    some (t.openf (t.index - 1), t)

/-- The new object of `Open(name, type)`, which goes into the table. -/
def newSlot (freeSlot : Int) (type : BitVec 32) : Option FileHeader → Command FileTable Unit
  | some hdr => do
    let p ← new hdr (some type)
    fun t => some ((), { t with
      openf := Function.update t.openf freeSlot (some p), opened := t.opened ++ [hdr] })
  | none => pure ()

/-- `Open(name, type)`. -/
def openTyped (name : List Byte) (type : BitVec 32) : Command FileTable (Option ℕ) := do
  let freeSlot ← findFreeSlot
  let hdr ← find name
  newSlot freeSlot type hdr
  fun t => some (t.openf freeSlot, t)

def create (u : Uninitialized) (name : List Byte) (initialSize : BitVec 32) :
    Command FileTable Bool := fun t =>
  (t.fs.create u name initialSize t.disk).map fun r => (r.1, { t with disk := r.2 })

def remove (u : Uninitialized) (name : List Byte) : Command FileTable Bool := fun t =>
  (t.fs.remove u name t.disk).map fun r => (r.1, { t with disk := r.2 })

/-- `openf[index++] = this->Open(name, type)`. -/
def openNext (name : List Byte) (type : BitVec 32) : Command FileTable Unit := do
  let p ← openTyped name type
  fun t => some ((), { t with openf := Function.update t.openf t.index p, index := t.index + 1 })

/-- The end of the constructor. -/
def setUp (stdin stdout : Uninitialized) : Command FileTable Unit := do
  openNext (FileSystem.chars "stdin") 2
  openNext (FileSystem.chars "stdout") 3
  let _ ← create stdin (FileSystem.chars "stdin") 0
  let _ ← create stdout (FileSystem.chars "stdout") 0
  pure ()

/-- The table before anything is opened. -/
def empty (fs : FileSystem) (disk : Disk) (beside : Int → Option ℕ) : FileTable where
  fs := fs
  disk := disk
  openf i := if 0 ≤ i ∧ i < 15 then none else beside i
  objects _ := none
  next := 0
  index := 0
  opened := []

end FileTable

/-- The disk is formatted, or the files on it are opened. -/
inductive Boot
  | format (u : Uninitialized)
  | mount

/-- The beginning of the constructor. -/
def Boot.files : Boot → Command Disk FileSystem
  | .format u => FileSystem.format u
  | .mount => do
    let freeMapFile ← FileHeader.fetchFrom FreeMapSector
    let directoryFile ← FileHeader.fetchFrom DirectorySector
    pure ⟨freeMapFile, directoryFile⟩

/-- All that the constructor finds: the disk, the memory beside `openf`, and new memory. -/
structure Initial where
  boot : Boot
  disk : Disk
  beside : Int → Option ℕ
  stdin : Uninitialized
  stdout : Uninitialized

/-- `FileSystem::FileSystem`. -/
def Initial.start (m : Initial) : Option FileTable :=
  match m.boot.files m.disk with
  | none => none
  | some (fs, disk) =>
    (FileTable.setUp m.stdin m.stdout (.empty fs disk m.beside)).map Prod.snd

/-- A call of the file system. -/
inductive FileCall
  | openNamed (name : List Byte)
  | openTyped (name : List Byte) (type : BitVec 32)
  | create (u : Uninitialized) (name : List Byte) (initialSize : BitVec 32)
  | remove (u : Uninitialized) (name : List Byte)

namespace FileCall

def run : FileCall → FileTable → Option FileTable
  | openNamed name, t => (FileTable.openNamed name t).map Prod.snd
  | openTyped name type, t => (FileTable.openTyped name type t).map Prod.snd
  | create u name initialSize, t => (FileTable.create u name initialSize t).map Prod.snd
  | remove u name, t => (FileTable.remove u name t).map Prod.snd

def isOpenNamed : FileCall → Bool
  | openNamed _ => true
  | _ => false

/-- One call after the other. -/
def runAll : List FileCall → FileTable → Option FileTable
  | [], t => some t
  | c :: cs, t => (c.run t).bind (runAll cs)

end FileCall

namespace FileTable

variable {t t' : FileTable} {name : List Byte} {type : BitVec 32} {i : ℕ} {a : ℕ}
  {hdr : FileHeader} {o : Option FileHeader}

/-- The header of the directory entry for a name, if it has one. Without a result a sector that
is not on the disk would be read. -/
def entry (t : FileTable) (name : List Byte) : Option (Option FileHeader) :=
  (t.fs.open' name t.disk).map Prod.fst

/-- `Open(name)` reads a slot of `openf`, leaves all slots as they are, and returns a handle of the
named file, or null if there is none. -/
def OpenLaw (t : FileTable) (name : List Byte) : Prop :=
  ∃ p t', openNamed name t = some (p, t') ∧ (0 ≤ t'.index - 1 ∧ t'.index - 1 < 15) ∧
    t'.openf = t.openf ∧
    (∀ hdr, t.entry name = some (some hdr) →
      ∃ a f, p = some a ∧ t'.objects a = some f ∧ f.hdr = hdr) ∧
    (t.entry name = some none → p = none)

/-- The pointer is null, or to an object with this header. -/
def Refers (objects : ℕ → Option FileObject) (p : Option ℕ) (o : Option FileHeader) : Prop :=
  p.map (fun a => (objects a).map FileObject.hdr) = o.map some

theorem Refers.eq_none_iff {objects : ℕ → Option FileObject} {p : Option ℕ}
    (h : Refers objects p o) : p = none ↔ o = none := by
  rw [Refers] at h
  cases p <;> cases o <;> simp_all

theorem Refers.of_some {objects : ℕ → Option FileObject} {p : Option ℕ}
    (h : Refers objects p (some hdr)) : ∃ a f, p = some a ∧ objects a = some f ∧ f.hdr = hdr := by
  rw [Refers] at h
  cases p with
  | none => cases h
  | some a =>
    simp only [Option.map_some, Option.some.injEq, Option.map_eq_some_iff] at h
    obtain ⟨f, hf, hhdr⟩ := h
    exact ⟨a, f, rfl, hf, hhdr⟩

theorem refers_some {objects : ℕ → Option FileObject} {f : FileObject} (h : objects a = some f) :
    Refers objects (some a) (some f.hdr) := by
  simp [Refers, h]

/-- A pointer determines the header. -/
theorem Refers.unique {objects : ℕ → Option FileObject} {p : Option ℕ} {o' : Option FileHeader}
    (h : Refers objects p o) (h' : Refers objects p o') : o = o' := by
  rw [Refers] at h h'
  have heq : o.map some = o'.map some := h.symm.trans h'
  exact Option.map_injective (fun _ _ => Option.some.inj) heq

/-- Where no object was, one may be made. -/
theorem Refers.update {objects : ℕ → Option FileObject} {p : Option ℕ} {f : FileObject}
    (h : Refers objects p o) (ha : objects a = none) :
    Refers (Function.update objects a (some f)) p o := by
  cases o with
  | none =>
    rw [h.eq_none_iff.mpr rfl]
    rfl
  | some hdr =>
    obtain ⟨b, g, rfl, hb, rfl⟩ := h.of_some
    have hne : b ≠ a := by
      rintro rfl
      simp [ha] at hb
    exact refers_some (by rw [Function.update_of_ne hne, hb])

/-- The slots behind those of the console hold what `Open(name, type)` has opened, in order. -/
structure Inv (t : FileTable) : Prop where
  fresh : ∀ a, t.next ≤ a → t.objects a = none
  slots : ∀ i : ℕ, i < 13 → Refers t.objects (t.openf (2 + i)) t.opened[i]?

/-- Where the next file goes. -/
theorem Inv.freeSlot (h : Inv t) : findFreeSlot t =
    some (if t.opened.length < 13 then 2 + (t.opened.length : Int) else -1, t) := by
  have hnull : ∀ i : ℕ, i < 13 → (t.openf (2 + i) = none ↔ t.opened.length ≤ i) := by
    intro i hi
    rw [(h.slots i hi).eq_none_iff, List.getElem?_eq_none_iff]
  rw [findFreeSlot]
  split
  · rename_i k hk
    have hfree := List.find?_some hk
    have hmem := List.mem_of_find?_eq_some hk
    rw [List.mem_range'_1] at hmem
    obtain ⟨i, rfl⟩ := Nat.exists_eq_add_of_le hmem.1
    have hle : t.opened.length ≤ i := by
      apply (hnull i (by omega)).mp
      simpa using hfree
    have hfirst : i ≤ t.opened.length := by
      by_contra hlt
      rw [freeSlot?, List.find?_range'_eq_some] at hk
      have := hk.2.2 (2 + t.opened.length) (by omega) (by omega)
      have hnone := (hnull t.opened.length (by omega)).mpr le_rfl
      simp [hnone] at this
    rw [if_pos (by omega)]
    push_cast
    congr 3
    omega
  · rename_i hnone
    rw [if_neg]
    intro hlt
    have hfree := (hnull t.opened.length hlt).mpr le_rfl
    have := List.find?_eq_none.mp hnone (2 + t.opened.length)
      (List.mem_range'_1.mpr (by omega))
    simp [hfree] at this

theorem find_eq_some_iff : find name t = some (o, t') ↔ t.entry name = some o ∧ t' = t := by
  rw [find, entry]
  cases hopen : t.fs.open' name t.disk with
  | none => simp
  | some r =>
    have hdisk : t.disk = r.2 := Command.Keeps.keeps _ _ _ hopen
    simp only [Option.map_some, Option.some.injEq, Prod.mk.injEq, ← hdisk]
    exact and_congr_right fun _ => eq_comm

theorem Inv.of_disk (h : Inv t) (disk : Disk) : Inv { t with disk := disk } := ⟨h.fresh, h.slots⟩

/-- An object of its own, which no slot refers to. -/
theorem Inv.newObject (h : Inv t) (o : Option FileHeader) : ∃ t', newObject o t = some ((), t') ∧
    Inv t' ∧ t'.openf = t.openf ∧ t'.index = t.index ∧ t'.opened = t.opened := by
  cases o with
  | none => exact ⟨t, rfl, h, rfl, rfl, rfl⟩
  | some hdr =>
    refine ⟨_, rfl, ⟨?_, ?_⟩, rfl, rfl, rfl⟩
    · intro a ha
      simp only at ha ⊢
      rw [Function.update_of_ne (by omega)]
      exact h.fresh a (by omega)
    · intro i hi
      exact (h.slots i hi).update (h.fresh t.next le_rfl)

/-- `Open(name)`: the slot at `index`, whatever that is. -/
theorem Inv.openNamed (h : Inv t) (hentry : t.entry name = some o) :
    ∃ t', openNamed name t = some (t.openf t.index, t') ∧ Inv t' ∧ t'.openf = t.openf ∧
      t'.index = t.index + 1 ∧ t'.opened = t.opened := by
  have hfind := find_eq_some_iff.mpr ⟨hentry, rfl⟩
  obtain ⟨t₁, hnew, hinv, hopenf, hindex, hopened⟩ := h.newObject o
  refine ⟨{ t₁ with index := t₁.index + 1 }, ?_, ⟨hinv.fresh, hinv.slots⟩, hopenf, ?_, hopened⟩
  · rw [FileTable.openNamed, Command.bind_of_some hfind, Command.bind_of_some hnew]
    simp [hopenf, hindex]
  · simp [hindex]

/-- `Open(name, type)`: a file that exists gets the next slot. -/
theorem Inv.newSlot (h : Inv t) (type : BitVec 32) (o : Option FileHeader) :
    ∃ t', newSlot (if t.opened.length < 13 then 2 + (t.opened.length : Int) else -1) type o t =
        some ((), t') ∧ Inv t' ∧ t'.index = t.index ∧ t'.opened = t.opened ++ o.toList ∧
      t'.fs = t.fs ∧ t'.disk = t.disk := by
  cases o with
  | none => exact ⟨t, rfl, h, rfl, by simp, rfl, rfl⟩
  | some hdr =>
    refine ⟨_, rfl, ⟨?_, ?_⟩, rfl, rfl, rfl, rfl⟩
    · intro a ha
      simp only at ha ⊢
      rw [Function.update_of_ne (by omega)]
      exact h.fresh a (by omega)
    · intro i hi
      have hold := (h.slots i hi).update (f := ⟨hdr, some type⟩) (h.fresh t.next le_rfl)
      simp only
      rcases Nat.lt_trichotomy i t.opened.length with hlt | heq | hgt
      · rw [Function.update_of_ne (by split <;> omega), List.getElem?_append_left hlt]
        exact hold
      · subst heq
        rw [if_pos hi, Function.update_self, List.getElem?_append_right le_rfl, Nat.sub_self]
        exact refers_some (f := ⟨hdr, some type⟩) (Function.update_self ..)
      · rw [if_pos (by omega), Function.update_of_ne (by omega),
          List.getElem?_eq_none (by simp; omega)]
        rwa [List.getElem?_eq_none (by omega)] at hold

theorem Inv.openTyped (h : Inv t) (hentry : t.entry name = some o) (type : BitVec 32) :
    ∃ p t', openTyped name type t = some (p, t') ∧ Inv t' ∧ t'.index = t.index ∧
      t'.opened = t.opened ++ o.toList ∧ t'.fs = t.fs ∧ t'.disk = t.disk := by
  have hfind := find_eq_some_iff.mpr ⟨hentry, rfl⟩
  obtain ⟨t₁, hnew, hinv, hindex, hopened, hfs⟩ := h.newSlot type o
  refine ⟨t₁.openf (if t.opened.length < 13 then 2 + (t.opened.length : Int) else -1), t₁, ?_,
    hinv, hindex, hopened, hfs⟩
  rw [FileTable.openTyped, Command.bind_of_some h.freeSlot, Command.bind_of_some hfind,
    Command.bind_of_some hnew]

theorem entry_of_openTyped {p : Option ℕ} (hrun : openTyped name type t = some (p, t')) :
    ∃ o, t.entry name = some o := by
  obtain ⟨slot, t₁, hslot, hrun⟩ := Command.bind_eq_some.mp hrun
  obtain ⟨o, t₂, hfind, -⟩ := Command.bind_eq_some.mp hrun
  cases hslot
  exact ⟨o, (find_eq_some_iff.mp hfind).1⟩

theorem entry_of_openNamed {p : Option ℕ} (hrun : openNamed name t = some (p, t')) :
    ∃ o, t.entry name = some o := by
  obtain ⟨o, t₁, hfind, -⟩ := Command.bind_eq_some.mp hrun
  exact ⟨o, (find_eq_some_iff.mp hfind).1⟩

/-! ## Runs -/

theorem Inv.of_call (h : Inv t) {c : FileCall} (hrun : c.run t = some t') :
    Inv t' ∧ t'.index = t.index + [c].countP FileCall.isOpenNamed := by
  cases c with
  | openNamed name =>
    obtain ⟨⟨p, t₁⟩, hopen, rfl⟩ := Option.map_eq_some_iff.mp hrun
    obtain ⟨o, hentry⟩ := entry_of_openNamed hopen
    obtain ⟨t₂, hopen₂, hinv, -, hindex, -⟩ := h.openNamed hentry
    rw [hopen] at hopen₂
    cases hopen₂
    exact ⟨hinv, hindex⟩
  | openTyped name type =>
    obtain ⟨⟨p, t₁⟩, hopen, rfl⟩ := Option.map_eq_some_iff.mp hrun
    obtain ⟨o, hentry⟩ := entry_of_openTyped hopen
    obtain ⟨p₂, t₂, hopen₂, hinv, hindex, -⟩ := h.openTyped hentry type
    rw [hopen] at hopen₂
    cases hopen₂
    exact ⟨hinv, by simpa [FileCall.isOpenNamed] using hindex⟩
  | create u name initialSize =>
    obtain ⟨⟨ok, t₁⟩, hcreate, rfl⟩ := Option.map_eq_some_iff.mp hrun
    obtain ⟨r, -, heq⟩ := Option.map_eq_some_iff.mp hcreate
    cases heq
    exact ⟨h.of_disk r.2, by simp [FileCall.isOpenNamed]⟩
  | remove u name =>
    obtain ⟨⟨ok, t₁⟩, hremove, rfl⟩ := Option.map_eq_some_iff.mp hrun
    obtain ⟨r, -, heq⟩ := Option.map_eq_some_iff.mp hremove
    cases heq
    exact ⟨h.of_disk r.2, by simp [FileCall.isOpenNamed]⟩

theorem Inv.of_calls (h : Inv t) {cs : List FileCall} (hrun : FileCall.runAll cs t = some t') :
    Inv t' ∧ t'.index = t.index + cs.countP FileCall.isOpenNamed := by
  induction cs generalizing t with
  | nil =>
    cases hrun
    exact ⟨h, by simp⟩
  | cons c cs ih =>
    obtain ⟨t₁, hc, hcs⟩ := Option.bind_eq_some_iff.mp hrun
    obtain ⟨h₁, hindex₁⟩ := h.of_call hc
    obtain ⟨h', hindex⟩ := ih h₁ hcs
    refine ⟨h', ?_⟩
    rw [hindex, hindex₁, ← List.singleton_append (l := cs), List.countP_append]
    push_cast
    omega

theorem inv_empty (fs : FileSystem) (disk : Disk) (beside : Int → Option ℕ) :
    Inv (empty fs disk beside) where
  fresh _ _ := rfl
  slots i hi := by
    have hopenf : (empty fs disk beside).openf (2 + i) = none := if_pos (by omega)
    rw [hopenf]
    rfl

/-- The two slots that the constructor fills are not among those behind them. -/
theorem Inv.openNext (h : Inv t) (hindex : 0 ≤ t.index ∧ t.index < 2)
    (hentry : t.entry name = some o) (type : BitVec 32) :
    ∃ t', openNext name type t = some ((), t') ∧ Inv t' ∧ t'.index = t.index + 1 ∧
      t'.opened = t.opened ++ o.toList ∧ t'.fs = t.fs ∧ t'.disk = t.disk := by
  obtain ⟨p, t₁, hopen, hinv, hindex₁, hopened, hfs, hdisk⟩ := h.openTyped hentry type
  refine ⟨_, Command.bind_of_some hopen, ⟨hinv.fresh, ?_⟩, ?_, hopened, hfs, hdisk⟩
  · intro i hi
    simp only
    rw [Function.update_of_ne (by omega)]
    exact hinv.slots i hi
  · simp [hindex₁]

theorem entry_of_openNext (hrun : openNext name type t = some ((), t')) :
    ∃ o, t.entry name = some o := by
  obtain ⟨p, t₁, hopen, -⟩ := Command.bind_eq_some.mp hrun
  exact entry_of_openTyped hopen

theorem inv_start {m : Initial} (hrun : m.start = some t) : Inv t ∧ t.index = 2 := by
  rw [Initial.start] at hrun
  split at hrun
  · cases hrun
  · rename_i fs disk hfiles
    obtain ⟨⟨⟨⟩, t₄⟩, hsetUp, rfl⟩ := Option.map_eq_some_iff.mp hrun
    obtain ⟨⟨⟩, t₁, hstdin, hsetUp⟩ := Command.bind_eq_some.mp hsetUp
    obtain ⟨⟨⟩, t₂, hstdout, hsetUp⟩ := Command.bind_eq_some.mp hsetUp
    obtain ⟨ok, t₃, hcreate, hsetUp⟩ := Command.bind_eq_some.mp hsetUp
    obtain ⟨ok', t₅, hcreate', heq⟩ := Command.bind_eq_some.mp hsetUp
    cases heq
    have hzero : (empty fs disk m.beside).index = 0 := rfl
    obtain ⟨o, hentry⟩ := entry_of_openNext hstdin
    obtain ⟨t₁', hstdin', h₁, hindex₁, -⟩ := (inv_empty fs disk m.beside).openNext (by omega) hentry 2
    rw [hstdin] at hstdin'
    cases hstdin'
    obtain ⟨o', hentry'⟩ := entry_of_openNext hstdout
    obtain ⟨t₂', hstdout', h₂, hindex₂, -⟩ := h₁.openNext (by omega) hentry' 3
    rw [hstdout] at hstdout'
    cases hstdout'
    obtain ⟨r, -, heq⟩ := Option.map_eq_some_iff.mp hcreate
    cases heq
    obtain ⟨r', -, heq⟩ := Option.map_eq_some_iff.mp hcreate'
    cases heq
    refine ⟨(h₂.of_disk r.2).of_disk r'.2, ?_⟩
    show t₂.index = 2
    omega

/-- Which slot `Open(name)` reads, and what is in it. -/
theorem Inv.lawful_iff (h : Inv t) {n : ℕ} (hindex : t.index = 2 + n) (name : List Byte) :
    t.OpenLaw name ↔ n ≤ 12 ∧ t.entry name = some t.opened[n]? := by
  constructor
  · rintro ⟨p, t', hopen, hslot, -, hyes, hno⟩
    obtain ⟨o, hentry⟩ := entry_of_openNamed hopen
    obtain ⟨t₁, hopen₁, hinv, hopenf, hindex₁, hopened⟩ := h.openNamed hentry
    rw [hopen] at hopen₁
    cases hopen₁
    have hn : n ≤ 12 := by omega
    have hrefers := hinv.slots n (by omega)
    rw [hopenf, hopened, ← hindex] at hrefers
    refine ⟨hn, ?_⟩
    rw [hentry, Option.some.injEq]
    cases o with
    | none =>
      rw [hno hentry] at hrefers
      exact (hrefers.eq_none_iff.mp rfl).symm
    | some hdr =>
      obtain ⟨a, f, hp, hf, rfl⟩ := hyes hdr hentry
      rw [hp] at hrefers
      exact (refers_some hf).unique hrefers
  · rintro ⟨hn, hentry⟩
    obtain ⟨t', hopen, hinv, hopenf, hindex', hopened⟩ := h.openNamed hentry
    have hrefers := hinv.slots n (by omega)
    rw [hopenf, hopened, ← hindex] at hrefers
    refine ⟨t.openf t.index, t', hopen, by omega, hopenf, ?_, ?_⟩
    · intro hdr hsome
      rw [hentry, Option.some.injEq] at hsome
      rw [hsome] at hrefers
      exact hrefers.of_some
    · intro hnone
      rw [hentry, Option.some.injEq] at hnone
      exact hrefers.eq_none_iff.mpr hnone

/-! ## A new disk -/

theorem entry_of_mounted (h : Mounted t.fs t.disk) (name : List Byte) :
    ((directoryOn t.fs t.disk).Has name → ∃ hdr, t.entry name = some (some hdr)) ∧
    (¬(directoryOn t.fs t.disk).Has name → t.entry name = some none) := by
  have hsign := h.find_nonneg_iff name
  rw [entry, h.open_spec]
  constructor
  · intro hhas
    rw [if_pos (hsign.mpr hhas)]
    exact ⟨_, rfl⟩
  · intro hnot
    rw [if_neg (mt hsign.mp hnot)]
    rfl

/-- After formatting, no file of the console is found, but then they are created. -/
theorem start_format (u stdin stdout : Uninitialized) (disk : Disk) (beside : Int → Option ℕ) :
    ∃ t, Initial.start ⟨.format u, disk, beside, stdin, stdout⟩ = some t ∧
      Mounted t.fs t.disk ∧ (directoryOn t.fs t.disk).Has (FileSystem.chars "stdin") ∧
      t.opened = [] := by
  obtain ⟨fs, d₀, hformat, hsound, hempty, htest⟩ := format_new u disk
  have h₀ := hsound.mounted
  have hnot : ∀ name, ¬(directoryOn fs d₀).Has name := by
    rintro name ⟨e, he, hu, -⟩
    rw [hsound.files.directoryOn_eq] at he
    simp [hempty e he] at hu
  have hstart : Initial.start ⟨.format u, disk, beside, stdin, stdout⟩ =
      (setUp stdin stdout (empty fs d₀ beside)).map Prod.snd := by
    simp only [Initial.start, Boot.files, hformat]
  -- neither of the two files is there yet
  have hzero : (empty fs d₀ beside).index = 0 := rfl
  obtain ⟨t₁, hstdin, h₁, hindex₁, hopened₁, hfs₁, hdisk₁⟩ := (inv_empty fs d₀ beside).openNext
    (by omega) ((entry_of_mounted (t := empty fs d₀ beside) h₀ _).2 (hnot _)) 2
  have hentry₁ : t₁.entry (FileSystem.chars "stdout") = some none := by
    apply (entry_of_mounted _ _).2
    · rw [hfs₁, hdisk₁]
      exact hnot _
    · rw [hfs₁, hdisk₁]
      exact h₀
  obtain ⟨t₂, hstdout, -, -, hopened₂, hfs₂, hdisk₂⟩ := h₁.openNext (by omega) hentry₁ 3
  have hfs : t₂.fs = fs := hfs₂.trans hfs₁
  have hdisk : t₂.disk = d₀ := hdisk₂.trans hdisk₁
  have hopened : t₂.opened = [] := by
    rw [hopened₂, hopened₁]
    rfl
  -- there is room for both
  have hroom : HasRoom fs d₀ (FileSystem.chars "stdin") 0 := by
    refine ⟨hnot _, ?_, ?_⟩
    · have hlength := h₀.valid_directory.length
      have hpos : 0 < (directoryOn fs d₀).length := by rw [hlength]; decide
      refine ⟨_, List.getElem_mem hpos, hempty _ ?_⟩
      rw [← hsound.files.directoryOn_eq]
      exact List.getElem_mem hpos
    · have hfour : 4 < NumSectors := by decide
      have hclear : 0 < (storedMap d₀).numClear := BitMap.numClear_pos hfour (htest 4 hfour)
      have hdata : ((0 : BitVec 32).toNat + (SectorSize - 1)) / SectorSize = 0 := by decide
      rw [hsound.files.mapOn_eq, hdata]
      exact hclear
  rcases h₀.create_cases stdin (FileSystem.chars "stdin")
      (show (0 : BitVec 32).toNat ≤ MaxFileSize by decide) with
    ⟨hlack, -⟩ | ⟨-, d₁, hcreate, hc⟩
  · exact absurd hroom hlack
  have hcreate₁ : create stdin (FileSystem.chars "stdin") 0 t₂ =
      some (true, { t₂ with disk := d₁ }) := by
    rw [create, hfs, hdisk, hcreate]
    rfl
  have hrun : ∀ ok d₂, fs.create stdout (FileSystem.chars "stdout") 0 d₁ = some (ok, d₂) →
      Initial.start ⟨.format u, disk, beside, stdin, stdout⟩ = some { t₂ with disk := d₂ } := by
    intro ok d₂ hcreate₂
    have hcreate₂' : create stdout (FileSystem.chars "stdout") 0 { t₂ with disk := d₁ } =
        some (ok, { t₂ with disk := d₂ }) := by
      simp only [create, hfs, hcreate₂]
      rfl
    rw [hstart, setUp, Command.bind_of_some hstdin, Command.bind_of_some hstdout,
      Command.bind_of_some hcreate₁, Command.bind_of_some hcreate₂']
    rfl
  rcases hc.mounted.create_cases stdout (FileSystem.chars "stdout")
    (show (0 : BitVec 32).toNat ≤ MaxFileSize by decide) with ⟨-, hcreate₂⟩ | ⟨-, d₂, hcreate₂, hc₂⟩
  · refine ⟨_, hrun false d₁ hcreate₂, ?_, ?_, hopened⟩
    · simpa only [hfs] using hc.mounted
    · simpa only [hfs] using hc.has
  · refine ⟨_, hrun true d₂ hcreate₂, ?_, ?_, hopened⟩
    · simpa only [hfs] using hc₂.mounted
    · obtain ⟨e, he, hu, hname⟩ := hc.has
      simp only [hfs]
      exact ⟨e, hc₂.entries e he hu, hu, hname⟩

end FileTable

end Nachos.Filesys

namespace Nachos

open Filesys

/-- After `n` calls of `Open(name)` in any history of calls, the next one finds the named file
exactly if `n` is at most `12` and that is the file that the call of `Open(name, type)` with number
`n` among those that found one has opened, or there is neither. -/
theorem open_named_iff {m : Initial} {t₀ t : FileTable} {cs : List FileCall}
    (hstart : m.start = some t₀) (hrun : FileCall.runAll cs t₀ = some t) (name : List Bytes.Byte) :
    t.OpenLaw name ↔ cs.countP FileCall.isOpenNamed ≤ 12 ∧
      t.entry name = some t.opened[cs.countP FileCall.isOpenNamed]? := by
  obtain ⟨h₀, hindex₀⟩ := FileTable.inv_start hstart
  obtain ⟨h, hindex⟩ := h₀.of_calls hrun
  rw [hindex₀] at hindex
  exact h.lawful_iff hindex name

/-- A new disk. -/
def newDisk : Initial := ⟨.format noMemory, fun _ => sectorOf [], fun _ => none, noMemory, noMemory⟩

/-- Once `Open(name, type)` has opened a file, `Open(name)` returns that. -/
theorem open_named_stdin : ∃ t₀ t, newDisk.start = some t₀ ∧
    FileCall.runAll [.openTyped (FileSystem.chars "stdin") 0] t₀ = some t ∧
    t.OpenLaw (FileSystem.chars "stdin") := by
  obtain ⟨t₀, hstart, hmounted, hhas, hopened⟩ := FileTable.start_format noMemory noMemory noMemory
    (fun _ => sectorOf []) fun _ => none
  obtain ⟨h₀, -⟩ := FileTable.inv_start hstart
  obtain ⟨hdr, hentry⟩ := (FileTable.entry_of_mounted hmounted _).1 hhas
  obtain ⟨p, t, hopen, -, -, hopened', hfs, hdisk⟩ := h₀.openTyped hentry 0
  have hrun : FileCall.runAll [.openTyped (FileSystem.chars "stdin") 0] t₀ = some t := by
    rw [FileCall.runAll, FileCall.run, hopen]
    rfl
  refine ⟨t₀, t, hstart, hrun, (open_named_iff hstart hrun _).mpr ⟨by decide, ?_⟩⟩
  rw [FileTable.entry, hfs, hdisk, ← FileTable.entry, hentry, hopened', hopened]
  rfl

/-- But right after formatting it does not find `stdin`. -/
theorem open_named_fails : ∃ t, newDisk.start = some t ∧
    (∃ hdr, t.entry (FileSystem.chars "stdin") = some (some hdr)) ∧
    ¬t.OpenLaw (FileSystem.chars "stdin") := by
  obtain ⟨t, hstart, hmounted, hhas, hopened⟩ := FileTable.start_format noMemory noMemory noMemory
    (fun _ => sectorOf []) fun _ => none
  obtain ⟨h, hindex⟩ := FileTable.inv_start hstart
  obtain ⟨hdr, hentry⟩ := (FileTable.entry_of_mounted hmounted _).1 hhas
  refine ⟨t, hstart, ⟨hdr, hentry⟩, fun hlaw => ?_⟩
  have hslot := ((h.lawful_iff (n := 0) (by omega) _).mp hlaw).2
  rw [hentry, hopened] at hslot
  cases hslot

end Nachos
