import Nachos.Lib.Word
import Nachos.Machine.Machine
import Mathlib.Data.List.TakeWhile

/-!
# Address spaces

What `addrspace.cc` computes from the header of an object file: how many pages to
allocate, and which stretches of `mainMemory` the segments are read into. All header
fields are C `int`s.
-/
namespace Nachos

/-- `struct segment` of `noff.h`. -/
structure Segment where
  virtualAddr : BitVec 32
  inFileAddr : BitVec 32
  size : BitVec 32
  deriving DecidableEq

/-- `struct noffHeader`, as it is after `SwapHeader`. -/
structure NoffHeader where
  noffMagic : BitVec 32
  code : Segment
  initData : Segment
  uninitData : Segment
  deriving DecidableEq

def NOFFMAGIC : BitVec 32 := 0xbadfad#32
def UserStackSize : BitVec 32 := 1024#32

/-- The macro `divRoundUp(n, s)` on unsigned operands. -/
def divRoundUp (n s : BitVec 32) : BitVec 32 := n / s + if 0 < n % s then 1 else 0

/-- The same macro where `n` is an `int`, with the division of C. -/
def sdivRoundUp (n s : BitVec 32) : BitVec 32 := n.sdiv s + if (0#32).slt (n.srem s) then 1 else 0

/-- A value of type `TranslationEntry *`: null, never assigned, or the array that the
constructor of an address space allocated. -/
inductive PageTable
  | null
  | wild (address : BitVec 32)
  | allocated (a : ℕ)
  deriving DecidableEq

/-- `class AddrSpace`. `entries` is the array behind `pageTable`, as far as it is filled. -/
structure AddrSpace where
  pageTable : PageTable
  numPages : BitVec 32
  entries : List TranslationEntry

namespace AddrSpace

/-- The physical frames in the page table. -/
def frames (s : AddrSpace) : List Int := s.entries.map TranslationEntry.physicalPage

end AddrSpace

namespace NoffHeader

variable (h : NoffHeader)

/-- `numPages` as computed for the free-memory check. -/
def numPages : BitVec 32 :=
  divRoundUp (h.code.size + h.initData.size + h.uninitData.size + UserStackSize)
    (BitVec.ofNat 32 PageSize)

def numCodePage : BitVec 32 := sdivRoundUp h.code.size (BitVec.ofNat 32 PageSize)

def lastCodePageSize : BitVec 32 :=
  h.code.size - (h.numCodePage - 1) * BitVec.ofNat 32 PageSize

def tempDataSize : BitVec 32 :=
  h.initData.size - (BitVec.ofNat 32 PageSize - h.lastCodePageSize)

def numDataPage : BitVec 32 :=
  if h.tempDataSize.slt 0#32 then 0 else sdivRoundUp h.tempDataSize (BitVec.ofNat 32 PageSize)

def firstDataPageSize : BitVec 32 :=
  if h.tempDataSize.slt 0#32 then h.initData.size
  else BitVec.ofNat 32 PageSize - h.lastCodePageSize

/-- Only read when there is a data page, so only when it was assigned. -/
def lastDataPageSize : BitVec 32 :=
  h.tempDataSize - (h.numDataPage - 1) * BitVec.ofNat 32 PageSize

/-- A call of `ReadAt` that loads part of a segment: the page it goes to, the place in it,
the number of bytes, and where they are in the file. -/
structure Piece where
  page : ℕ
  offset : Int
  numBytes : Int
  position : Int
  deriving DecidableEq

/-- These calls in order: the code, the data behind it in its last page, and the rest of
the data. -/
def pieces : List Piece :=
  (List.range h.numCodePage.toNat).map (fun i =>
    ⟨i, 0, if i < (h.numCodePage - 1).toNat then (PageSize : Int) else h.lastCodePageSize.toInt,
      (h.code.inFileAddr + BitVec.ofNat 32 (i * PageSize)).toInt⟩) ++
  (if h.lastCodePageSize.toInt < PageSize ∧ 0 < h.firstDataPageSize.toInt then
    [⟨(h.numCodePage - 1).toNat, h.lastCodePageSize.toInt, h.firstDataPageSize.toInt,
      h.initData.inFileAddr.toInt⟩] else []) ++
  (List.range h.numDataPage.toNat).map (fun j =>
    ⟨h.numCodePage.toNat + j, 0,
      if j < (h.numDataPage - 1).toNat then (PageSize : Int) else h.lastDataPageSize.toInt,
      (h.initData.inFileAddr + BitVec.ofNat 32 (j * PageSize) + h.firstDataPageSize).toInt⟩)

/-- Where in `mainMemory` page `i` begins, for the loader. It asks for pages of the table
only: a piece of another page is not read, see `Reads`. -/
def pageStart (entries : List TranslationEntry) (i : ℕ) : Int :=
  h.code.virtualAddr.toInt + (entries.getD i default).physicalPage * PageSize

/-- Where in `mainMemory` a piece is read into. -/
def into (entries : List TranslationEntry) (p : Piece) : Int :=
  h.pageStart entries p.page + p.offset

/-- The page of a piece is in the table, and `Lseek` takes its position. -/
def Reads (p : Piece) : Prop := p.page < h.numPages.toNat ∧ 0 ≤ p.position

instance (p : Piece) : Decidable (h.Reads p) := inferInstanceAs (Decidable (_ ∧ _))

/-- Every piece is read. -/
def Loads : Prop := ∀ p ∈ h.pieces, h.Reads p

instance : Decidable h.Loads := inferInstanceAs (Decidable (∀ _ ∈ _, _))

/-- The pieces that are read before one is not. There the machine is at an end: `pageTable`
is read behind the array, where no frame is to be had, or `Lseek` aborts. -/
def piecesRead : List Piece := h.pieces.takeWhile fun p => h.Reads p

/-- The pieces whose page table entry is looked at: those read, and the one that is not. -/
def attempted : List Piece := h.pieces.take (h.piecesRead.length + 1)

/-- The calls of `ReadAt` that load the segments: the place in `mainMemory` and the number
of bytes of each. -/
def reads (entries : List TranslationEntry) : List (Int × Int) :=
  h.piecesRead.map fun p => (h.into entries p, p.numBytes)

variable {h}

theorem piecesRead_of_loads (hs : h.Loads) : h.piecesRead = h.pieces :=
  List.takeWhile_eq_self_iff.mpr fun p hp => decide_eq_true (hs p hp)

theorem mem_pieces_of_read {p : Piece} (hp : p ∈ h.piecesRead) : p ∈ h.pieces :=
  (List.takeWhile_sublist _).mem hp

theorem reads_of_mem {p : Piece} (hp : p ∈ h.piecesRead) : h.Reads p := by
  have := List.mem_takeWhile_imp hp
  simpa using this

/-- A header as `coff2noff` writes it for a program linked with `-T 0`: the code starts at
address zero, and the sizes add up without leaving 32 bits. -/
def Linked (h : NoffHeader) : Prop :=
  h.code.virtualAddr = 0 ∧
    h.code.size.toNat + h.initData.size.toNat + h.uninitData.size.toNat + 1024 < 2 ^ 32

instance : Decidable h.Linked := inferInstanceAs (Decidable (_ ∧ _))

theorem toNat_divRoundUp (x : BitVec 32) :
    (divRoundUp x (BitVec.ofNat 32 PageSize)).toNat = (x.toNat + 511) / 512 := by
  unfold divRoundUp PageSize
  split <;> rename_i hm <;> simp [BitVec.lt_def] at hm ⊢ <;> omega

theorem toNat_sdivRoundUp {x : BitVec 32} (hx : x.toNat < 2 ^ 31) :
    (sdivRoundUp x (BitVec.ofNat 32 PageSize)).toNat = (x.toNat + 511) / 512 := by
  have hm : x.msb = false := by
    rw [BitVec.msb_eq_decide]
    simp
    omega
  have hp : (BitVec.ofNat 32 PageSize).msb = false := by decide
  rw [← toNat_divRoundUp]
  unfold sdivRoundUp divRoundUp
  rw [BitVec.sdiv_eq, BitVec.srem_eq, hm, hp]
  simp only [BitVec.udiv_eq]
  have hr : (x % BitVec.ofNat 32 PageSize).toNat < 2 ^ 31 := by
    simp [PageSize]
    omega
  have : (0#32).slt (x % BitVec.ofNat 32 PageSize) = true ↔ 0 < x % BitVec.ofNat 32 PageSize := by
    rw [BitVec.slt_iff_toInt_lt, Word.toInt_of_lt hr, BitVec.lt_def]
    simp [PageSize]
    omega
  simp only [this]

/-- The segments and the stack fill `numPages` pages, the last one perhaps in part. -/
theorem toNat_numPages (hl : h.Linked) : h.numPages.toNat =
    (h.code.size.toNat + h.initData.size.toNat + h.uninitData.size.toNat + 1024 + 511) / 512 := by
  have hsum : (h.code.size + h.initData.size + h.uninitData.size + UserStackSize).toNat =
      h.code.size.toNat + h.initData.size.toNat + h.uninitData.size.toNat + 1024 := by
    have := hl.2
    simp only [BitVec.toNat_add, UserStackSize, BitVec.toNat_ofNat]
    omega
  rw [numPages, toNat_divRoundUp, hsum]

/-- The last code page is partly filled, or full; also when there is no code. -/
theorem lastCodePageSize_spec (hc : h.code.size.toNat < 2 ^ 31) :
    1 ≤ h.lastCodePageSize.toNat ∧ h.lastCodePageSize.toNat ≤ 512 ∧
    h.numCodePage.toNat * 512 + h.lastCodePageSize.toNat = h.code.size.toNat + 512 := by
  have hn : h.numCodePage.toNat = (h.code.size.toNat + 511) / 512 := toNat_sdivRoundUp hc
  have hl : h.lastCodePageSize.toNat =
      (h.code.size.toNat +
        (2 ^ 32 - ((h.numCodePage.toNat + (2 ^ 32 - 1)) % 2 ^ 32 * 512) % 2 ^ 32)) % 2 ^ 32 := by
    simp [lastCodePageSize, PageSize, BitVec.toNat_sub, BitVec.toNat_mul]
    omega
  omega

/-- What is left of the data after the last code page, with the wrap of the machine. -/
theorem toNat_tempDataSize (h1 : 1 ≤ h.lastCodePageSize.toNat)
    (h2 : h.lastCodePageSize.toNat ≤ 512) : h.tempDataSize.toNat =
      (h.initData.size.toNat + 2 ^ 32 - (512 - h.lastCodePageSize.toNat)) % 2 ^ 32 := by
  simp only [tempDataSize, PageSize, BitVec.toNat_sub, BitVec.toNat_ofNat]
  omega

/-- Nothing is left: all the data goes behind the code. -/
theorem data_of_negative (ht : 2 ^ 31 ≤ h.tempDataSize.toNat) :
    h.numDataPage = 0 ∧ h.firstDataPageSize = h.initData.size := by
  simp [numDataPage, firstDataPageSize, (Word.slt_zero_iff _).mpr ht]

/-- Otherwise the last code page is filled, and the rest gets pages of its own. -/
theorem data_of_nonneg (h2 : h.lastCodePageSize.toNat ≤ 512) (ht : h.tempDataSize.toNat < 2 ^ 31) :
    h.numDataPage.toNat = (h.tempDataSize.toNat + 511) / 512 ∧
    h.firstDataPageSize.toNat + h.lastCodePageSize.toNat = 512 := by
  have hs : ¬h.tempDataSize.slt 0#32 = true := by
    rw [Word.slt_zero_iff]
    omega
  have hd : h.numDataPage = sdivRoundUp h.tempDataSize (BitVec.ofNat 32 PageSize) := if_neg hs
  have hf : h.firstDataPageSize = BitVec.ofNat 32 PageSize - h.lastCodePageSize := if_neg hs
  refine ⟨by rw [hd, toNat_sdivRoundUp ht], ?_⟩
  rw [hf]
  simp only [PageSize, BitVec.toNat_sub, BitVec.toNat_ofNat]
  omega

/-- How initialised data is split over the end of the code and further pages. -/
theorem data_spec (hc : h.code.size.toNat < 2 ^ 31) (hi : h.initData.size.toNat < 2 ^ 31) :
    (h.initData.size.toNat + h.lastCodePageSize.toNat < 512 ∧ h.numDataPage.toNat = 0 ∧
      h.firstDataPageSize.toNat = h.initData.size.toNat) ∨
    (512 ≤ h.initData.size.toNat + h.lastCodePageSize.toNat ∧
      h.firstDataPageSize.toNat + h.lastCodePageSize.toNat = 512 ∧
      h.tempDataSize.toNat + 512 = h.initData.size.toNat + h.lastCodePageSize.toNat ∧
      h.numDataPage.toNat = (h.tempDataSize.toNat + 511) / 512) := by
  obtain ⟨h1, h2, _⟩ := lastCodePageSize_spec hc
  have ht := toNat_tempDataSize h1 h2
  by_cases hn : h.initData.size.toNat + h.lastCodePageSize.toNat < 512
  · obtain ⟨hd, hf⟩ := data_of_negative (h := h) (by omega)
    exact .inl ⟨hn, by rw [hd]; rfl, by rw [hf]⟩
  · obtain ⟨hd, hf⟩ := data_of_nonneg h2 (by omega)
    exact .inr ⟨by omega, hf, by omega, hd⟩

/-- The last data page has the rest. -/
theorem lastDataPageSize_spec (hn : h.numDataPage.toNat = (h.tempDataSize.toNat + 511) / 512) :
    h.numDataPage.toNat * 512 + h.lastDataPageSize.toNat = h.tempDataSize.toNat + 512 := by
  have hl : h.lastDataPageSize.toNat =
      (h.tempDataSize.toNat +
        (2 ^ 32 - ((h.numDataPage.toNat + (2 ^ 32 - 1)) % 2 ^ 32 * 512) % 2 ^ 32)) % 2 ^ 32 := by
    simp [lastDataPageSize, PageSize, BitVec.toNat_sub, BitVec.toNat_mul]
    omega
  have := h.tempDataSize.isLt
  omega

/-- A stretch of `mainMemory`. -/
def InMemory (start length : Int) : Prop := 0 ≤ start ∧ start + length ≤ (MemorySize : Int)

/-- `code.virtualAddr` leaves every piece that is read in its page, and none is looked for
behind the table. -/
structure InPages (h : NoffHeader) : Prop where
  page : ∀ p ∈ h.attempted, p.page < h.numPages.toNat
  stays : ∀ p ∈ h.piecesRead, 0 ≤ h.code.virtualAddr.toInt + p.offset ∧
    h.code.virtualAddr.toInt + p.offset + p.numBytes ≤ PageSize

instance : Decidable h.InPages :=
  decidable_of_iff ((∀ p ∈ h.attempted, p.page < h.numPages.toNat) ∧
    ∀ p ∈ h.piecesRead, 0 ≤ h.code.virtualAddr.toInt + p.offset ∧
      h.code.virtualAddr.toInt + p.offset + p.numBytes ≤ PageSize)
    ⟨fun hp => ⟨hp.1, hp.2⟩, fun hp => ⟨hp.page, hp.stays⟩⟩

/-- With frames that are there, such a program is read into memory. -/
theorem InPages.inMemory (hp : h.InPages) {entries : List TranslationEntry}
    (hlen : entries.length = h.numPages.toNat)
    (hf : ∀ e ∈ entries, 0 ≤ e.physicalPage ∧ e.physicalPage < NumPhysPages) :
    ∀ r ∈ h.reads entries, InMemory r.1 r.2 := by
  simp only [reads, List.mem_map]
  rintro _ ⟨p, hr, rfl⟩
  have hpage : p.page < entries.length := hlen ▸ (reads_of_mem hr).1
  have he := hf _ (List.getElem_mem hpage)
  have hin := hp.stays p hr
  have hsize : (MemorySize : Int) = 65536 := by decide
  simp only [InMemory, into, pageStart, List.getD_eq_getElem?_getD, List.getElem?_eq_getElem hpage,
    Option.getD_some, hsize]
  simp only [NumPhysPages, PageSize] at he hin ⊢
  omega

/-- Each piece of a linked program is part of one page of the table. -/
theorem Linked.piece (hl : h.Linked) (hn : h.numPages.toNat ≤ NumPhysPages) {p : Piece}
    (hp : p ∈ h.pieces) :
    p.page < h.numPages.toNat ∧ 0 ≤ p.offset ∧ p.offset + p.numBytes ≤ PageSize := by
  have hpages := toNat_numPages hl
  rw [hpages] at hn ⊢
  simp only [NumPhysPages] at hn
  have hc : h.code.size.toNat < 2 ^ 31 := by omega
  have hi : h.initData.size.toNat < 2 ^ 31 := by omega
  obtain ⟨hl1, hl2, hcode⟩ := lastCodePageSize_spec hc
  have hlast : h.lastCodePageSize.toInt = h.lastCodePageSize.toNat := Word.toInt_of_lt (by omega)
  have hpred : 0 < h.numCodePage.toNat → (h.numCodePage - 1).toNat = h.numCodePage.toNat - 1 := by
    intro h0
    simp [BitVec.toNat_sub]
    omega
  have hdata := data_spec hc hi
  simp only [pieces, List.mem_append, List.mem_map, List.mem_range] at hp
  rcases hp with (⟨i, hi, rfl⟩ | hp) | ⟨j, hj, rfl⟩
  · -- a page of code
    refine ⟨?_, le_rfl, ?_⟩
    · simp only
      omega
    · simp only [PageSize]
      split <;> omega
  · -- data behind the code, in its last page
    split at hp
    · rename_i hcond
      simp only [List.mem_singleton] at hp
      subst hp
      simp only [PageSize] at hcond ⊢
      have hcp : 0 < h.numCodePage.toNat := by omega
      have hfirst : h.firstDataPageSize.toInt = h.firstDataPageSize.toNat :=
        Word.toInt_of_lt (by omega)
      rw [hpred hcp]
      omega
    · simp at hp
  · -- a page of data
    rcases hdata with ⟨_, h0, _⟩ | ⟨_, _, htemp, hnum⟩
    · omega
    · have hld := lastDataPageSize_spec hnum
      have hldi : h.lastDataPageSize.toInt = h.lastDataPageSize.toNat := Word.toInt_of_lt (by omega)
      refine ⟨?_, le_rfl, ?_⟩
      · simp only
        omega
      · simp only [PageSize]
        split <;> omega

/-- What the linker makes is not displaced. -/
theorem Linked.inPages (hl : h.Linked) (hn : h.numPages.toNat ≤ NumPhysPages) : h.InPages := by
  constructor
  · exact fun p hp => (hl.piece hn (List.mem_of_mem_take hp)).1
  · intro p hp
    have hva : h.code.virtualAddr.toInt = 0 := by rw [hl.1]; rfl
    rw [hva, zero_add]
    exact (hl.piece hn (mem_pieces_of_read hp)).2

end NoffHeader

end Nachos
