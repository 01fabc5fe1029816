import Nachos.Lib.Bytes
import Nachos.Machine.Machine

/-!
# Memory and files of the host

`Machine::ReadMem` and `Machine::WriteMem` (`translate.cc`) through the page table, and the
regular files of the host as `sysdep.cc` reads and writes them.
-/
namespace Nachos

open Bytes (Byte)

/-- An entry after an access. -/
def TranslationEntry.touch (e : TranslationEntry) (writing : Bool) : TranslationEntry :=
  { e with use := true, dirty := e.dirty || writing }

/-- What the simulated machine has of memory. `mainMemory` is an array of the host, so the
kernel can also reach what lies around it. -/
structure UserMemory where
  mainMemory : Bytes.Memory
  pageTable : ℕ → TranslationEntry
  pageTableSize : BitVec 32

namespace UserMemory

variable {u u' u'' : UserMemory} {addr a b : BitVec 32} {i j : ℕ} {writing : Bool}

/-- `Translate`, with the use and dirty bits it sets. -/
def translated (u : UserMemory) (addr : BitVec 32) (size : ℕ) (writing : Bool) :
    Except ExceptionType (Int × UserMemory) :=
  (translate u.pageTable u.pageTableSize addr size writing).map fun r =>
    ((r.1.toNat : Int),
      { u with pageTable := Function.update u.pageTable (addr.toNat / PageSize) r.2 })

/-- `Machine::ReadMem` for one byte, a `char` of the host. -/
def readByte (u : UserMemory) (addr : BitVec 32) : Except ExceptionType (BitVec 32 × UserMemory) :=
  (u.translated addr 1 false).map fun r => ((r.2.mainMemory r.1).signExtend 32, r.2)

/-- `Machine::WriteMem` for one byte. -/
def writeByte (u : UserMemory) (addr value : BitVec 32) : Except ExceptionType UserMemory :=
  (u.translated addr 1 true).map fun r =>
    { r.2 with mainMemory := Function.update r.2.mainMemory r.1 (value.truncate 8) }

/-- The place in `mainMemory` of a virtual address. -/
def place (u : UserMemory) (addr : BitVec 32) : Int :=
  (u.pageTable (addr.toNat / PageSize)).physicalPage * PageSize + (addr.toNat % PageSize : ℕ)

/-- A byte that can be accessed: its page is there, permits it and has a frame of the memory. -/
structure Mapped (u : UserMemory) (addr : BitVec 32) (writing : Bool) : Prop where
  page : addr.toNat / PageSize < u.pageTableSize.toNat
  valid : (u.pageTable (addr.toNat / PageSize)).valid = true
  permitted : writing = true → (u.pageTable (addr.toNat / PageSize)).readOnly = false
  frame : 0 ≤ (u.pageTable (addr.toNat / PageSize)).physicalPage
  frame_lt : (u.pageTable (addr.toNat / PageSize)).physicalPage < NumPhysPages

/-- The page table after an access. -/
def touch (u : UserMemory) (addr : BitVec 32) (writing : Bool) : UserMemory :=
  { u with
    pageTable := Function.update u.pageTable (addr.toNat / PageSize)
      ((u.pageTable (addr.toNat / PageSize)).touch writing) }

/-- The physical address that `Translate` computes. -/
def physAddr (u : UserMemory) (addr : BitVec 32) : BitVec 32 :=
  BitVec.ofInt 32 (u.pageTable (addr.toNat / PageSize)).physicalPage * BitVec.ofNat 32 PageSize +
    BitVec.ofNat 32 (addr.toNat % PageSize)

theorem Mapped.toNat_physAddr (h : u.Mapped addr writing) :
    ((u.physAddr addr).toNat : Int) = u.place addr := by
  have h0 := h.frame
  have hlt := h.frame_lt
  simp only [physAddr, BitVec.toNat_add, BitVec.toNat_mul, BitVec.toNat_ofInt, place]
  simp only [PageSize, NumPhysPages, BitVec.toNat_ofNat] at h0 hlt ⊢
  omega

/-- An access that is not refused for its alignment. -/
theorem Mapped.translate {size : ℕ} (h : u.Mapped addr writing)
    (ha : ¬((size = 4 ∧ addr &&& 3 ≠ 0) ∨ (size = 2 ∧ addr &&& 1 ≠ 0))) :
    Nachos.translate u.pageTable u.pageTableSize addr size writing =
      .ok (u.physAddr addr, (u.pageTable (addr.toNat / PageSize)).touch writing) := by
  obtain ⟨hp, hv, hw, h0, hlt⟩ := h
  have hframe : (BitVec.ofInt 32 (u.pageTable (addr.toNat / PageSize)).physicalPage).toNat =
      (u.pageTable (addr.toNat / PageSize)).physicalPage.toNat := by
    simp only [BitVec.toNat_ofInt, NumPhysPages] at hlt ⊢
    omega
  have hperm : ((u.pageTable (addr.toNat / PageSize)).readOnly && writing) = false := by
    cases writing with
    | false => simp
    | true => simp [hw rfl]
  simp only [Nachos.translate, TranslationEntry.touch, physAddr]
  rw [if_neg ha, if_neg (by omega), if_neg (by simp [hv]), if_neg (by simp [hperm]),
    if_neg (by rw [hframe]; omega)]

theorem Mapped.translated (h : u.Mapped addr writing) :
    u.translated addr 1 writing = .ok (u.place addr, u.touch addr writing) := by
  rw [UserMemory.translated, h.translate (by simp), Except.map, h.toNat_physAddr, touch]

theorem Mapped.readByte (h : u.Mapped addr false) :
    u.readByte addr = .ok ((u.mainMemory (u.place addr)).signExtend 32, u.touch addr false) := by
  rw [UserMemory.readByte, h.translated]
  rfl

theorem Mapped.writeByte (h : u.Mapped addr true) (value : BitVec 32) :
    u.writeByte addr value = .ok { u.touch addr true with
      mainMemory := Function.update u.mainMemory (u.place addr) (value.truncate 8) } := by
  rw [UserMemory.writeByte, h.translated]
  rfl

/-- Pages have different frames. -/
def Injective (u : UserMemory) : Prop :=
  ∀ p < u.pageTableSize.toNat, ∀ q < u.pageTableSize.toNat, (u.pageTable p).valid = true →
    (u.pageTable q).valid = true → (u.pageTable p).physicalPage = (u.pageTable q).physicalPage → p = q

theorem Injective.place (hu : u.Injective) (ha : u.Mapped a false) (hb : u.Mapped b false)
    (h : u.place a = u.place b) : a = b := by
  have hframe : (u.pageTable (a.toNat / PageSize)).physicalPage =
      (u.pageTable (b.toNat / PageSize)).physicalPage := by
    simp only [UserMemory.place, PageSize] at h ⊢
    omega
  have hpage := hu _ ha.page _ hb.page ha.valid hb.valid hframe
  refine BitVec.eq_of_toNat_eq ?_
  simp only [UserMemory.place, PageSize] at h hframe hpage
  omega

/-- The byte at a virtual address. -/
def byte (u : UserMemory) (addr : BitVec 32) : Byte := u.mainMemory (u.place addr)

theorem Mapped.read (h : u.Mapped a writing) : u.Mapped a false :=
  ⟨h.page, h.valid, fun hf => absurd hf Bool.false_ne_true, h.frame, h.frame_lt⟩

/-- The page table is the same but for its use and dirty bits. -/
structure SameMap (u u' : UserMemory) : Prop where
  size : u'.pageTableSize = u.pageTableSize
  entry : ∀ p, (u'.pageTable p).physicalPage = (u.pageTable p).physicalPage ∧
    (u'.pageTable p).valid = (u.pageTable p).valid ∧
    (u'.pageTable p).readOnly = (u.pageTable p).readOnly

theorem SameMap.refl (u : UserMemory) : SameMap u u := ⟨rfl, fun _ => ⟨rfl, rfl, rfl⟩⟩

theorem SameMap.trans (h : SameMap u u') (h' : SameMap u' u'') : SameMap u u'' := by
  refine ⟨h'.size.trans h.size, fun p => ?_⟩
  obtain ⟨h₁, h₂, h₃⟩ := h.entry p
  obtain ⟨h₁', h₂', h₃'⟩ := h'.entry p
  exact ⟨h₁'.trans h₁, h₂'.trans h₂, h₃'.trans h₃⟩

theorem SameMap.place (h : SameMap u u') (a : BitVec 32) : u'.place a = u.place a := by
  rw [UserMemory.place, UserMemory.place, (h.entry _).1]

theorem SameMap.mapped (h : SameMap u u') (hm : u.Mapped a writing) : u'.Mapped a writing := by
  obtain ⟨h₁, h₂, h₃⟩ := h.entry (a.toNat / PageSize)
  exact ⟨h.size ▸ hm.page, h₂ ▸ hm.valid, fun hw => h₃ ▸ hm.permitted hw, h₁ ▸ hm.frame,
    h₁ ▸ hm.frame_lt⟩

theorem SameMap.injective (h : SameMap u u') (hu : u.Injective) : u'.Injective := by
  intro p hp q hq hvp hvq hpq
  rw [h.size] at hp hq
  rw [(h.entry p).2.1] at hvp
  rw [(h.entry q).2.1] at hvq
  rw [(h.entry p).1, (h.entry q).1] at hpq
  exact hu p hp q hq hvp hvq hpq

theorem sameMap_touch (u : UserMemory) (addr : BitVec 32) (writing : Bool) :
    SameMap u (u.touch addr writing) := by
  refine ⟨rfl, fun p => ?_⟩
  simp only [touch]
  by_cases hp : p = addr.toNat / PageSize
  · subst hp
    simp [TranslationEntry.touch]
  · simp [hp]

/-- The `n` bytes from `addr` on. -/
def bytes (u : UserMemory) (addr : BitVec 32) (n : ℕ) : List Byte :=
  (List.range n).map fun i => u.byte (addr + BitVec.ofNat 32 i)

/-- No byte is changed. -/
structure Touched (u u' : UserMemory) : Prop extends SameMap u u' where
  main : u'.mainMemory = u.mainMemory

end UserMemory

/-- A regular file of the host. Positions in it are C `int`s. -/
structure HostFile where
  contents : List Byte
  small : contents.length < 2 ^ 31

namespace HostFile

theorem small_nil : ([] : List Byte).length < 2 ^ 31 := by decide

/-- `ReadPartial` at a position: as many bytes as there are. A negative count is an error,
and nothing is read. -/
def readPartial (f : HostFile) (position numBytes : Int) : List Byte :=
  (f.contents.drop position.toNat).take numBytes.toNat

/-- `WriteFile` at a position, unless the host has no room for it: then an `ASSERT` fails. -/
def writeFile (f : HostFile) (position : ℕ) (bs : List Byte) : Option HostFile :=
  if h : (Bytes.overwrite f.contents position bs).length < 2 ^ 31 then
    some ⟨Bytes.overwrite f.contents position bs, h⟩
  else none

variable (f : HostFile) {position numBytes : Int}

theorem writeFile_eq (position : ℕ) (bs : List Byte) (h : position + bs.length < 2 ^ 31) :
    ∃ f', f.writeFile position bs = some f' ∧
      f'.contents = Bytes.overwrite f.contents position bs := by
  have hsmall : (Bytes.overwrite f.contents position bs).length < 2 ^ 31 := by
    by_cases hb : bs = []
    · rw [Bytes.overwrite, if_pos hb]
      exact f.small
    · rw [Bytes.length_overwrite hb]
      exact max_lt f.small h
  exact ⟨⟨_, hsmall⟩, dif_pos hsmall, rfl⟩

theorem length_readPartial : (f.readPartial position numBytes).length =
    min numBytes.toNat (f.contents.length - position.toNat) := by
  simp [readPartial]

theorem getD_readPartial {k : ℕ} (hk : k < (f.readPartial position numBytes).length) :
    (f.readPartial position numBytes).getD k 0 = f.contents.getD (position.toNat + k) 0 := by
  rw [length_readPartial] at hk
  simp only [readPartial, List.getD_eq_getElem?_getD]
  rw [List.getElem?_take_of_lt (by omega), List.getElem?_drop]

end HostFile

end Nachos
