import Nachos.Machine.Memory
import Nachos.Userprog.AddrSpace

/-!
# Loading a program

What the constructors of `AddrSpace` leave in memory. Both read the segments with the same
calls, into frames that may lie anywhere.
-/
namespace Nachos

open Bytes (Byte)

/-- The file has all the bytes of a segment. -/
def Segment.InFile (s : Segment) (f : HostFile) : Prop :=
  s.size ≠ 0 → 0 ≤ s.inFileAddr.toInt ∧ s.inFileAddr.toInt + s.size.toInt ≤ f.contents.length

namespace NoffHeader

variable {h : NoffHeader} {f : HostFile} {frames : List Int} {m : Bytes.Memory}

/-- The page table the constructors fill, for the frames that `Find` returned. -/
def entriesOf (frames : List Int) : List TranslationEntry :=
  frames.zipIdx.map fun r => ⟨r.2, r.1, true, false, false, false⟩

/-- `bzero` of each frame. -/
def zeroFrames (frames : List Int) (m : Bytes.Memory) : Bytes.Memory :=
  frames.foldl (fun m r => Bytes.store m (r * PageSize) (List.replicate PageSize 0)) m

/-- The calls of `ReadAt`, in order. -/
def readSegments (h : NoffHeader) (f : HostFile) (frames : List Int) (m : Bytes.Memory) :
    Bytes.Memory :=
  h.piecesRead.foldl (fun m p =>
    Bytes.store m (h.into (entriesOf frames) p) (f.readPartial p.position p.numBytes)) m

/-- The memory a constructor leaves, from the allocation on. -/
def loaded (h : NoffHeader) (f : HostFile) (frames : List Int) (m : Bytes.Memory) : Bytes.Memory :=
  h.readSegments f frames (zeroFrames frames m)

/-- The ten words of a header. The host is little endian, so `SwapHeader` has nothing to do. -/
def ofBytes (bs : List Byte) : NoffHeader :=
  let word (k : ℕ) := Bytes.toWord (bs.drop (4 * k))
  ⟨word 0, ⟨word 1, word 2, word 3⟩, ⟨word 4, word 5, word 6⟩, ⟨word 7, word 8, word 9⟩⟩

/-- `noffH` after it was read. Of a short file, what was on the `stack` remains. -/
def read (f : HostFile) (stack : List Byte) : NoffHeader :=
  ofBytes (f.readPartial 0 40 ++ stack.drop (f.readPartial 0 40).length)

/-- Either constructor, on a file that was opened: the address space and the memory, unless
it returned early, an `ASSERT` failed or `pageTable` was read behind the array. `frames` are
the answers of `Find`. -/
def construct (f : HostFile) (stack : List Byte) (numClear : ℕ) (frames : List Int) (a : ℕ)
    (m : Bytes.Memory) : Option (AddrSpace × Bytes.Memory) :=
  let noffH := read f stack
  if noffH.noffMagic ≠ NOFFMAGIC then none
  else if numClear < noffH.numPages.toNat then none
  else if ¬noffH.Loads then none
  else some (⟨.allocated a, noffH.numPages, entriesOf frames⟩, noffH.loaded f frames m)

/-- A header as the linker script and `coff2noff` make it. -/
structure Layout (h : NoffHeader) : Prop where
  code : h.code.virtualAddr = 0
  initData : h.initData.virtualAddr = h.code.size
  codeSize : 0 ≤ h.code.size.toInt
  initDataSize : 0 ≤ h.initData.size.toInt
  uninitDataSize : 0 ≤ h.uninitData.size.toInt
  total : h.code.size.toInt + h.initData.size.toInt + h.uninitData.size.toInt + 1024 < 2 ^ 31

/-- What a program should find at its virtual address `v`. -/
def image (h : NoffHeader) (f : HostFile) (v : ℕ) : Byte :=
  if v < h.code.size.toNat then f.contents.getD (h.code.inFileAddr.toNat + v) 0
  else if v < h.code.size.toNat + h.initData.size.toNat then
    f.contents.getD (h.initData.inFileAddr.toNat + (v - h.code.size.toNat)) 0
  else 0

/-- The sizes, as natural numbers. -/
theorem Layout.sizes (hl : h.Layout) : h.code.size.toNat + h.initData.size.toNat +
    h.uninitData.size.toNat + 1024 < 2 ^ 31 := by
  have h1 := Word.toNat_of_nonneg hl.codeSize
  have h2 := Word.toNat_of_nonneg hl.initDataSize
  have h3 := Word.toNat_of_nonneg hl.uninitDataSize
  have := hl.total
  omega

theorem Layout.linked (hl : h.Layout) : h.Linked := ⟨hl.code, by have := hl.sizes; omega⟩

/-- Part of a segment that begins at `base` in the file and at `start` in virtual memory. -/
structure Piece.Of (p : Piece) (base start size : ℕ) : Prop where
  offset : 0 ≤ p.offset
  numBytes : 0 < p.numBytes
  inPage : p.offset + p.numBytes ≤ PageSize
  lower : (start : Int) ≤ p.page * PageSize + p.offset
  upper : p.page * PageSize + p.offset + p.numBytes ≤ (start + size : ℕ)
  position : p.position = base + (p.page * PageSize + p.offset - start)

/-- The virtual addresses a piece goes to. -/
def Piece.covers (p : Piece) (v : ℕ) : Prop :=
  p.page * PageSize + p.offset ≤ v ∧ v < p.page * PageSize + p.offset + p.numBytes

/-- How many bytes the segments have in a file. -/
def extent (h : NoffHeader) : Int := h.code.size.toInt + max h.initData.size.toInt 0

/-- Each piece is part of the code or of the data, when the segments are in a file and
`tempDataSize` does not overflow. -/
theorem piece_of (hc : 0 ≤ h.code.size.toInt)
    (hw : -h.code.size.toInt % 512 ≤ h.initData.size.toInt + 2 ^ 31)
    (ha : 0 < h.code.size.toInt →
      0 ≤ h.code.inFileAddr.toInt ∧ h.code.inFileAddr.toInt + h.code.size.toInt < 2 ^ 31)
    (hb : 0 < h.initData.size.toInt →
      0 ≤ h.initData.inFileAddr.toInt ∧ h.initData.inFileAddr.toInt + h.initData.size.toInt < 2 ^ 31)
    {p : Piece} (hp : p ∈ h.pieces) :
    p.Of h.code.inFileAddr.toNat 0 h.code.size.toNat ∨
    p.Of h.initData.inFileAddr.toNat h.code.size.toNat h.initData.size.toInt.toNat := by
  obtain ⟨hcs, hcl⟩ := Word.toNat_of_nonneg hc
  obtain ⟨hl1, hl2, hcode⟩ := lastCodePageSize_spec hcl
  have hlast : h.lastCodePageSize.toInt = h.lastCodePageSize.toNat := Word.toInt_of_lt (by omega)
  have htemp := toNat_tempDataSize hl1 hl2
  have hds := Word.toInt_toNat h.initData.size
  simp only [pieces, List.mem_append, List.mem_map, List.mem_range] at hp
  rcases hp with (⟨i, hi, rfl⟩ | hp) | ⟨j, hj, rfl⟩
  · -- a page of code
    left
    obtain ⟨ha, hfile⟩ := ha (by omega)
    have hpos := Word.toInt_add_ofNat (n := i * PageSize) ha (by simp only [PageSize]; omega)
    rw [hpos, Word.toNat_pred (by omega)]
    constructor <;> simp only [PageSize] <;> omega
  · -- data behind the code, in its last page
    right
    split at hp
    · rename_i hcond
      simp only [List.mem_singleton] at hp
      subst hp
      simp only [PageSize] at hcond
      by_cases hneg : 2 ^ 31 ≤ h.tempDataSize.toNat
      · obtain ⟨-, hfirst⟩ := data_of_negative hneg
        rw [hfirst] at hcond ⊢
        have ha := (Word.toNat_of_nonneg (hb hcond.2).1).1
        rw [Word.toNat_pred (by omega), hlast, ha]
        constructor <;> simp only [PageSize] <;> omega
      · obtain ⟨-, hsum⟩ := data_of_nonneg hl2 (by omega)
        have hfirst : h.firstDataPageSize.toInt = h.firstDataPageSize.toNat :=
          Word.toInt_of_lt (by omega)
        have ha := (Word.toNat_of_nonneg (hb (by omega)).1).1
        rw [Word.toNat_pred (by omega), hfirst, hlast, ha]
        constructor <;> simp only [PageSize] <;> omega
    · simp at hp
  · -- a page of data
    right
    by_cases hneg : 2 ^ 31 ≤ h.tempDataSize.toNat
    · rw [(data_of_negative hneg).1] at hj
      exact absurd hj (Nat.not_lt_zero j)
    · obtain ⟨hnum, hfirst⟩ := data_of_nonneg hl2 (by omega)
      have hld := lastDataPageSize_spec hnum
      have hldi : h.lastDataPageSize.toInt = h.lastDataPageSize.toNat := Word.toInt_of_lt (by omega)
      obtain ⟨ha, hfile⟩ := hb (by omega)
      have hpos := Word.toInt_add_ofNat (n := j * PageSize + h.firstDataPageSize.toNat) ha
        (by simp only [PageSize]; omega)
      rw [BitVec.ofNat_add, BitVec.ofNat_toNat, BitVec.setWidth_eq, ← BitVec.add_assoc] at hpos
      rw [hpos, Word.toNat_pred (by omega)]
      constructor <;> simp only [PageSize] <;> omega

/-- Together they are all of both. -/
theorem covered (hc : 0 ≤ h.code.size.toInt) {v : ℕ} (hv : v < h.extent) :
    ∃ p ∈ h.pieces, p.covers v := by
  obtain ⟨hcs, hcl⟩ := Word.toNat_of_nonneg hc
  obtain ⟨hl1, hl2, hcode⟩ := lastCodePageSize_spec hcl
  have hlast : h.lastCodePageSize.toInt = h.lastCodePageSize.toNat := Word.toInt_of_lt (by omega)
  simp only [extent] at hv
  simp only [pieces, List.mem_append, List.mem_map, List.mem_range]
  by_cases hcv : v < h.code.size.toNat
  · refine ⟨_, .inl (.inl ⟨v / 512, by omega, rfl⟩), ?_⟩
    rw [Word.toNat_pred (by omega)]
    simp only [Piece.covers, PageSize]
    split <;> omega
  obtain ⟨hds, hdl⟩ := Word.toNat_of_nonneg (x := h.initData.size) (by omega)
  have hdata := data_spec hcl hdl
  have hfirst : h.firstDataPageSize.toInt = h.firstDataPageSize.toNat := Word.toInt_of_lt (by omega)
  by_cases hs : v < h.code.size.toNat + h.firstDataPageSize.toNat
  · rw [if_pos (by simp only [PageSize]; omega)]
    refine ⟨_, .inl (.inr (List.mem_singleton_self _)), ?_⟩
    rw [Word.toNat_pred (by omega)]
    simp only [Piece.covers, PageSize]
    omega
  · rcases hdata with _ | ⟨_, _, htemp, hnum⟩
    · omega
    · have hld := lastDataPageSize_spec hnum
      have hldi : h.lastDataPageSize.toInt = h.lastDataPageSize.toNat := Word.toInt_of_lt (by omega)
      refine ⟨_, .inr ⟨v / 512 - h.numCodePage.toNat, by omega, rfl⟩, ?_⟩
      rw [Word.toNat_pred (by omega)]
      simp only [Piece.covers, PageSize]
      split <;> omega

theorem Segment.InFile.range {s : Segment} (hs : s.InFile f) (h0 : 0 < s.size.toInt) :
    0 ≤ s.inFileAddr.toInt ∧ s.inFileAddr.toInt + s.size.toInt < 2 ^ 31 := by
  obtain ⟨ha, hle⟩ := hs fun h => by simp [h] at h0
  have := f.small
  omega

theorem Layout.piece_of (hl : h.Layout) (hc : h.code.InFile f) (hd : h.initData.InFile f)
    {p : Piece} (hp : p ∈ h.pieces) :
    p.Of h.code.inFileAddr.toNat 0 h.code.size.toNat ∨
    p.Of h.initData.inFileAddr.toNat h.code.size.toNat h.initData.size.toNat := by
  have hds := Word.toNat_of_nonneg hl.initDataSize
  have hd0 := hl.initDataSize
  have hof := NoffHeader.piece_of hl.codeSize (by omega) (Segment.InFile.range hc)
    (Segment.InFile.range hd) hp
  rwa [hds.1, Int.toNat_natCast] at hof

/-! ## Frames -/

/-- Where virtual address `v` is, with these frames. -/
def frameAddr (frames : List Int) (v : ℕ) : Int :=
  frames.getD (v / PageSize) 0 * PageSize + (v % PageSize : ℕ)

theorem into_entriesOf (p : Piece) : h.into (entriesOf frames) p =
    h.code.virtualAddr.toInt + frames.getD p.page 0 * PageSize + p.offset := by
  simp only [into, pageStart, entriesOf, List.getD_eq_getElem?_getD, List.getElem?_map,
    List.getElem?_zipIdx]
  cases frames[p.page]? with
  | none => rfl
  | some r => simp

/-- Two pages have one frame only if they are the same page. -/
theorem page_inj (hn : frames.Nodup) {i j : ℕ} (hi : i < frames.length) (hj : j < frames.length)
    (h : frames.getD i 0 = frames.getD j 0) : i = j := by
  simp only [List.getD_eq_getElem?_getD, List.getElem?_eq_getElem hi, List.getElem?_eq_getElem hj,
    Option.getD_some] at h
  exact (hn.getElem_inj_iff).mp h

/-- A stretch of one page, in memory and as virtual addresses. -/
theorem frameAddr_mem (hn : frames.Nodup) {i v : ℕ} (hi : i < frames.length)
    (hv : v < frames.length * PageSize) {offset numBytes : Int} (h0 : 0 ≤ offset)
    (h1 : offset + numBytes ≤ PageSize) :
    (frames.getD i 0 * PageSize + offset ≤ frameAddr frames v ∧
      frameAddr frames v < frames.getD i 0 * PageSize + offset + numBytes) ↔
    (i * PageSize + offset ≤ v ∧ v < i * PageSize + offset + numBytes) := by
  simp only [PageSize] at hv h1
  by_cases he : v / 512 = i
  · subst he
    simp only [frameAddr, PageSize]
    omega
  · have hne : frames.getD (v / 512) 0 ≠ frames.getD i 0 := fun h =>
      he (page_inj hn (by omega) hi h)
    simp only [frameAddr, PageSize]
    omega

/-- `bzero` reaches all of the new pages. -/
theorem zeroFrames_at {v : ℕ} (hv : v < frames.length * PageSize) :
    zeroFrames frames m (frameAddr frames v) = 0 := by
  have hpage : v / 512 < frames.length := by simp only [PageSize] at hv; omega
  have hwrites := Bytes.foldl_writes (l := frames) (b := 0) (x := frameAddr frames v)
    (fun m r => Bytes.store m (r * PageSize) (List.replicate PageSize 0))
    (fun r => r * PageSize ≤ frameAddr frames v ∧ frameAddr frames v < r * PageSize + PageSize)
    (fun r _ m hc => Bytes.store_replicate_of_mem (n := PageSize) hc.1 hc.2)
    (fun r _ m hc => Bytes.store_of_not_mem (by
      rw [List.length_replicate]
      omega)) m
  refine hwrites.1 ⟨frames.getD (v / 512) 0, ?_, ?_⟩
  · rw [List.getD_eq_getElem?_getD, List.getElem?_eq_getElem hpage]
    exact List.getElem_mem hpage
  · simp only [frameAddr, PageSize]
    omega

/-- A piece puts the bytes of its segment where they belong, and touches nothing else of the
new pages. -/
theorem Piece.Of.store {p : Piece} {base start size v : ℕ} (hp : p.Of base start size)
    (hf : size ≠ 0 → base + size ≤ f.contents.length) (hv0 : h.code.virtualAddr = 0)
    (hn : frames.Nodup) (hpage : p.page < frames.length) (hv : v < frames.length * PageSize)
    (m : Bytes.Memory) :
    let m' := Bytes.store m (h.into (entriesOf frames) p) (f.readPartial p.position p.numBytes)
    (p.covers v → (start ≤ v ∧ v < start + size) ∧
      m' (frameAddr frames v) = f.contents.getD (base + (v - start)) 0) ∧
    (¬p.covers v → m' (frameAddr frames v) = m (frameAddr frames v)) := by
  obtain ⟨h0, h1, h2, h3, h4, h5⟩ := hp
  have hiff := frameAddr_mem hn hpage hv h0 h2
  have hlen : (f.readPartial p.position p.numBytes).length = p.numBytes := by
    rw [HostFile.length_readPartial]
    omega
  intro m'
  have hinto : h.into (entriesOf frames) p = frames.getD p.page 0 * PageSize + p.offset := by
    simp [into_entriesOf, hv0]
  simp only [m', hinto]
  constructor
  · intro hc
    obtain ⟨hlo, hhi⟩ := hiff.mpr hc
    obtain ⟨hlo', hhi'⟩ := hc
    refine ⟨by omega, ?_⟩
    rw [Bytes.store_of_mem hlo (by omega), HostFile.getD_readPartial _ (by omega)]
    congr 1
    simp only [PageSize] at h2 h3 h5 hlo' hhi'
    have hd : v / 512 = p.page := by omega
    simp only [frameAddr, PageSize, hd]
    omega
  · intro hc
    have hc := mt hiff.mp hc
    exact Bytes.store_of_not_mem (by omega)

theorem Segment.InFile.le {s : Segment} (hs : s.InFile f) (h0 : 0 ≤ s.size.toInt)
    (hne : s.size.toNat ≠ 0) : s.inFileAddr.toNat + s.size.toNat ≤ f.contents.length := by
  obtain ⟨ha, hle⟩ := hs fun h => hne (by rw [h]; rfl)
  have h1 := Word.toNat_of_nonneg ha
  have h2 := Word.toNat_of_nonneg h0
  omega

/-- A piece goes to one of the pages. -/
theorem Layout.page_lt (hl : h.Layout) (hlen : frames.length = h.numPages.toNat) {p : Piece}
    {base start size : ℕ} (hof : p.Of base start size)
    (hle : start + size ≤ h.code.size.toNat + h.initData.size.toNat) :
    p.page < frames.length := by
  have hpages := toNat_numPages hl.linked
  have hupper := hof.upper
  have := hof.offset
  have := hof.numBytes
  simp only [PageSize] at hupper
  omega

/-- What a piece writes is part of the image. -/
theorem Layout.store_piece (hl : h.Layout) (hc : h.code.InFile f) (hd : h.initData.InFile f)
    (hn : frames.Nodup) (hlen : frames.length = h.numPages.toNat) {v : ℕ}
    (hv : v < frames.length * PageSize) {p : Piece} (hp : p ∈ h.pieces) (m : Bytes.Memory) :
    let m' := Bytes.store m (h.into (entriesOf frames) p) (f.readPartial p.position p.numBytes)
    (p.covers v → v < h.code.size.toNat + h.initData.size.toNat ∧
      m' (frameAddr frames v) = h.image f v) ∧
    (¬p.covers v → m' (frameAddr frames v) = m (frameAddr frames v)) := by
  rcases hl.piece_of hc hd hp with hof | hof
  · have hpage := hl.page_lt hlen hof (by omega)
    obtain ⟨hin, hout⟩ := hof.store (Segment.InFile.le hc hl.codeSize) hl.code hn hpage hv m
    refine ⟨fun hcov => ?_, hout⟩
    obtain ⟨⟨_, hlt⟩, heq⟩ := hin hcov
    refine ⟨by omega, heq.trans ?_⟩
    rw [image, if_pos (by omega), Nat.sub_zero]
  · have hpage := hl.page_lt hlen hof le_rfl
    obtain ⟨hin, hout⟩ := hof.store (Segment.InFile.le hd hl.initDataSize) hl.code hn hpage hv m
    refine ⟨fun hcov => ?_, hout⟩
    obtain ⟨⟨hge, hlt⟩, heq⟩ := hin hcov
    refine ⟨hlt, heq.trans ?_⟩
    rw [image, if_neg (by omega), if_pos hlt]

/-- The constructors leave the image in the new pages. -/
theorem Layout.loaded_at (hl : h.Layout) (hc : h.code.InFile f) (hd : h.initData.InFile f)
    (hs : h.Loads) (hn : frames.Nodup) (hlen : frames.length = h.numPages.toNat) {v : ℕ}
    (hv : v < frames.length * PageSize) :
    h.loaded f frames m (frameAddr frames v) = h.image f v := by
  have hwrites := Bytes.foldl_writes (l := h.pieces) (b := h.image f v) (x := frameAddr frames v)
    (fun m p => Bytes.store m (h.into (entriesOf frames) p) (f.readPartial p.position p.numBytes))
    (fun p => p.covers v)
    (fun p hp m hcov => ((hl.store_piece hc hd hn hlen hv hp m).1 hcov).2)
    (fun p hp m => (hl.store_piece hc hd hn hlen hv hp m).2) (zeroFrames frames m)
  rw [loaded, readSegments, piecesRead_of_loads hs]
  by_cases hin : v < h.code.size.toNat + h.initData.size.toNat
  · refine hwrites.1 (covered hl.codeSize ?_)
    have h1 := Word.toNat_of_nonneg hl.codeSize
    have h2 := Word.toNat_of_nonneg hl.initDataSize
    simp only [extent]
    omega
  · rw [hwrites.2 fun p hp hcov => hin ((hl.store_piece hc hd hn hlen hv hp m).1 hcov).1,
      zeroFrames_at hv, image, if_neg (by omega), if_neg hin]

theorem getD_entriesOf {i : ℕ} (hi : i < frames.length) :
    (entriesOf frames).getD i default = ⟨i, frames.getD i 0, true, false, false, false⟩ := by
  simp [entriesOf, List.getD_eq_getElem?_getD, List.getElem?_eq_getElem hi]

end NoffHeader

/-- What the machine has after `AddrSpace::RestoreState`. -/
def AddrSpace.restored (s : AddrSpace) (m : Bytes.Memory) : UserMemory :=
  ⟨m, fun i => s.entries.getD i default, s.numPages⟩

@[simp] theorem AddrSpace.restored_mainMemory (s : AddrSpace) (m : Bytes.Memory) :
    (s.restored m).mainMemory = m := rfl

/-- With frames that are there, all addresses of the new pages can be used. -/
theorem AddrSpace.restored_mapped {s : AddrSpace} {frames : List Int} {m : Bytes.Memory}
    {addr : BitVec 32} (he : s.entries = NoffHeader.entriesOf frames)
    (hlen : frames.length = s.numPages.toNat) (hf : ∀ r ∈ frames, 0 ≤ r ∧ r < NumPhysPages)
    (ha : addr.toNat < s.numPages.toNat * PageSize) (writing : Bool) :
    (s.restored m).Mapped addr writing ∧
    (s.restored m).place addr = NoffHeader.frameAddr frames addr.toNat := by
  have hpage : addr.toNat / PageSize < frames.length := by
    simp only [PageSize] at ha ⊢
    omega
  have hmem : frames.getD (addr.toNat / PageSize) 0 ∈ frames := by
    rw [List.getD_eq_getElem?_getD, List.getElem?_eq_getElem hpage]
    exact List.getElem_mem hpage
  have hentry := NoffHeader.getD_entriesOf hpage
  constructor
  · constructor <;> simp only [restored, he, hentry]
    · omega
    · simp
    · exact (hf _ hmem).1
    · exact (hf _ hmem).2
  · simp only [UserMemory.place, restored, he, hentry]
    rfl

/-- Frames that are all different are not mixed up. -/
theorem AddrSpace.restored_injective {s : AddrSpace} {frames : List Int} {m : Bytes.Memory}
    (he : s.entries = NoffHeader.entriesOf frames) (hlen : frames.length = s.numPages.toNat)
    (hn : frames.Nodup) : (s.restored m).Injective := by
  intro p hp q hq _ _ hframe
  have hp : p < frames.length := hlen ▸ hp
  have hq : q < frames.length := hlen ▸ hq
  simp only [restored, he, NoffHeader.getD_entriesOf hp, NoffHeader.getD_entriesOf hq] at hframe
  rw [List.getD_eq_getElem _ _ hp, List.getD_eq_getElem _ _ hq, hn.getElem_inj_iff] at hframe
  exact hframe

/-- A program in memory as it should be when it starts. -/
structure Started (noffH : NoffHeader) (f : HostFile) (u : UserMemory) (r : Registers) : Prop where
  read : ∀ addr : BitVec 32, addr.toNat < noffH.numPages.toNat * PageSize →
    u.readByte addr = .ok ((noffH.image f addr.toNat).signExtend 32, u.touch addr false)
  stack : (r Registers.StackReg).toNat = noffH.numPages.toNat * PageSize - 16
  room : noffH.code.size.toNat + noffH.initData.size.toNat + noffH.uninitData.size.toNat +
    (UserStackSize.toNat - 16) ≤ (r Registers.StackReg).toNat

open NoffHeader in
/-- Whatever frames it gets, a program as the linker makes it is loaded as its file says. -/
theorem construct_started {f : HostFile} {stack : List Byte} {numClear a : ℕ} {frames : List Int}
    {m m' : Bytes.Memory} {s : AddrSpace} (hl : (NoffHeader.read f stack).Layout)
    (hc : (NoffHeader.read f stack).code.InFile f) (hd : (NoffHeader.read f stack).initData.InFile f)
    (hlen : frames.length = (NoffHeader.read f stack).numPages.toNat) (hn : frames.Nodup)
    (hf : ∀ r ∈ frames, 0 ≤ r ∧ r < NumPhysPages)
    (h : construct f stack numClear frames a m = some (s, m')) :
    Started (NoffHeader.read f stack) f (s.restored m') (Registers.initRegisters s.numPages) := by
  simp only [construct] at h
  split at h
  · cases h
  split at h
  · cases h
  split at h
  · cases h
  rename_i hs
  simp only [Option.some.injEq, Prod.mk.injEq] at h
  obtain ⟨rfl, rfl⟩ := h
  have hs := not_not.mp hs
  have hsizes := hl.sizes
  have hpages := toNat_numPages hl.linked
  have hsp : (Registers.initRegisters (NoffHeader.read f stack).numPages Registers.StackReg).toNat =
      (NoffHeader.read f stack).numPages.toNat * PageSize - 16 := by
    have h16 : (16 : BitVec 32).toNat = 16 := rfl
    simp only [Registers.initRegisters, Registers.writeRegister, Function.update_self,
      BitVec.toNat_sub, BitVec.toNat_mul, PageSize, BitVec.toNat_ofNat, h16]
    omega
  refine ⟨fun addr ha => ?_, hsp, ?_⟩
  · obtain ⟨hmapped, hplace⟩ := AddrSpace.restored_mapped
      (s := ⟨.allocated a, (NoffHeader.read f stack).numPages, entriesOf frames⟩)
      (m := (NoffHeader.read f stack).loaded f frames m) rfl hlen hf ha false
    rw [hmapped.readByte, hplace, AddrSpace.restored_mainMemory,
      hl.loaded_at hc hd hs hn hlen (by rw [hlen]; exact ha)]
  · rw [hsp]
    simp only [PageSize, UserStackSize, BitVec.toNat_ofNat] at hpages ⊢
    omega

/-- A file with four bytes of code and two of data, and room for one byte more. -/
def smallProgram : HostFile where
  contents := ([NOFFMAGIC, 0, 40, 4, 4, 44, 2, 0, 0, 1].map Bytes.ofWord).flatten ++
    [0x0c#8, 0#8, 0#8, 0#8, 7#8, 9#8]
  small := by decide

theorem construct_started_smallProgram : ∃ s m',
    NoffHeader.construct smallProgram [] 128 [5, 0, 2] 0 (fun _ => 1) = some (s, m') ∧
    Started (NoffHeader.read smallProgram []) smallProgram (s.restored m')
      (Registers.initRegisters s.numPages) := by
  have hc : ∃ x, NoffHeader.construct smallProgram [] 128 [5, 0, 2] 0 (fun _ => 1) = some x := by
    simp only [NoffHeader.construct]
    rw [if_neg (by decide +kernel), if_neg (by decide +kernel), if_neg (by decide +kernel)]
    exact ⟨_, rfl⟩
  obtain ⟨⟨s, m'⟩, hc⟩ := hc
  exact ⟨s, m', hc, construct_started ⟨by decide +kernel, by decide +kernel, by decide +kernel,
    by decide +kernel, by decide +kernel, by decide +kernel⟩ (fun _ => by decide +kernel)
    (fun _ => by decide +kernel) (by decide +kernel) (by decide +kernel) (by decide +kernel) hc⟩

end Nachos
