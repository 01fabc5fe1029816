import Nachos.Userprog.BitMap
import Nachos.Userprog.Loader

/-!
# Where a program is loaded

A header is not checked, so its fields decide where in `mainMemory` the segments go. Most
values that no linker produces lead out of the frames of the new process.
-/
namespace Nachos

open Bytes (Byte)

namespace NoffHeader

variable {h : NoffHeader} {f : HostFile} {frames : List Int}

/-- Loading stays in the page table and in these frames. -/
structure Confined (h : NoffHeader) (f : HostFile) (frames : List Int) : Prop where
  page : ∀ p ∈ h.attempted, p.page < h.numPages.toNat
  bytes : ∀ p ∈ h.piecesRead, ∀ k < (f.readPartial p.position p.numBytes).length, ∃ r ∈ frames,
    r * PageSize ≤ h.into (entriesOf frames) p + k ∧
      h.into (entriesOf frames) p + k < r * PageSize + PageSize

/-- It does so for every file with this header, whatever frames are free. -/
def LoadsConfined (h : NoffHeader) : Prop :=
  ∀ (f : HostFile) (stack : List Byte) (map : BitMap), read f stack = h →
    h.noffMagic = NOFFMAGIC → map.numBits = 256 → h.numPages.toNat ≤ map.numClear →
    h.Confined f (map.finds h.numPages.toNat)

/-- How many bytes the largest file has for a piece. -/
def Piece.readable (p : Piece) : Int := min p.numBytes (2 ^ 31 - 1 - p.position)

/-- `code.virtualAddr` leaves the bytes of a piece in its page. If the process gets all
frames, they may be in any. -/
def Piece.Stays (h : NoffHeader) (p : Piece) : Prop :=
  (0 ≤ h.code.virtualAddr.toInt + p.offset ∧
    h.code.virtualAddr.toInt + p.offset + p.readable ≤ PageSize) ∨
  (h.numPages.toNat = 256 ∧ 0 ≤ h.code.virtualAddr.toInt + p.page * PageSize + p.offset ∧
    h.code.virtualAddr.toInt + p.page * PageSize + p.offset + p.readable ≤ 256 * PageSize)

instance (p : Piece) : Decidable (p.Stays h) := inferInstanceAs (Decidable (_ ∨ _))

/-- The headers that are not loaded at all, or whose pieces all stay in pages that are there. -/
def Confining (h : NoffHeader) : Prop :=
  h.noffMagic ≠ NOFFMAGIC ∨ 256 < h.numPages.toNat ∨
    (∀ p ∈ h.attempted, p.page < h.numPages.toNat) ∧
      ∀ p ∈ h.piecesRead, 0 < p.readable → p.Stays h

/-! ## A file for every header -/

/-- A header as it is in a file. -/
def encode (h : NoffHeader) : List Byte :=
  [h.noffMagic, h.code.virtualAddr, h.code.inFileAddr, h.code.size,
    h.initData.virtualAddr, h.initData.inFileAddr, h.initData.size,
    h.uninitData.virtualAddr, h.uninitData.inFileAddr, h.uninitData.size].flatMap Bytes.ofWord

theorem length_encode (h : NoffHeader) : h.encode.length = 40 := rfl

theorem ofBytes_encode (h : NoffHeader) (bs : List Byte) : ofBytes (h.encode ++ bs) = h := by
  simp only [ofBytes, encode]
  simp (disch := simp) only [Bytes.toWord_drop]
  rfl

/-- The largest file with a header. -/
def largest (h : NoffHeader) : HostFile where
  contents := h.encode ++ List.replicate (2 ^ 31 - 41) 0
  small := by
    rw [List.length_append, List.length_replicate, length_encode]
    decide

theorem read_largest (h : NoffHeader) (stack : List Byte) : read h.largest stack = h := by
  have htake : h.largest.readPartial 0 40 = h.encode := by
    rw [HostFile.readPartial, largest]
    exact List.take_left' (length_encode h)
  rw [read, htake, ofBytes_encode]

theorem length_readPartial_largest (h : NoffHeader) {p : Piece} (hp : 0 ≤ p.position) :
    ((h.largest.readPartial p.position p.numBytes).length : Int) = max 0 p.readable := by
  have hlen : h.largest.contents.length = 2 ^ 31 - 1 := by
    rw [largest, List.length_append, List.length_replicate, length_encode]
    omega
  rw [HostFile.length_readPartial, hlen, Piece.readable]
  omega

/-! ## Frames -/

/-- With everything free the frames are the first ones. -/
theorem finds_clear {map : BitMap} {n : ℕ} (hn : n ≤ map.numBits)
    (ht : ∀ i < map.numBits, map.test i = false) :
    map.finds n = (List.range n).map fun k : ℕ => (k : Int) :=
  BitMap.finds_eq fun k hk =>
    ⟨by omega, ht k (by omega), fun l hl => hl, fun j hj => .inr ⟨j, hj, rfl⟩⟩

theorem getD_finds_clear {map : BitMap} {n i : ℕ} (hn : n ≤ map.numBits)
    (ht : ∀ i < map.numBits, map.test i = false) (hi : i < n) : (map.finds n).getD i 0 = i := by
  rw [finds_clear hn ht, List.getD_eq_getElem?_getD, List.getElem?_map, List.getElem?_range hi]
  rfl

/-- All frames but `g` are free. -/
def allBut (g : ℕ) : BitMap := (BitMap.ofSize 256).mark g

theorem finds_allBut {n g : ℕ} (hn : n < 256) :
    (allBut g).finds n = (List.range n).map fun k => ((if k < g then k else k + 1 : ℕ) : Int) := by
  refine BitMap.finds_eq fun k hk => ⟨?_, ?_, fun l hl => ?_, fun j hj => ?_⟩
  · show _ < 256
    split <;> omega
  · rw [allBut, BitMap.test_mark, BitMap.test_ofSize]
    simp
    split <;> omega
  · split <;> split <;> omega
  · by_cases hjg : j = g
    · exact .inl (by simp [allBut, BitMap.test_mark, hjg])
    · by_cases hlt : j < g
      · exact .inr ⟨j, by split at hj <;> omega, if_pos hlt⟩
      · exact .inr ⟨j - 1, by split at hj <;> omega, by rw [if_neg (by omega)]; omega⟩

theorem numClear_allBut {g : ℕ} (hg : g < 256) : (allBut g).numClear = 255 := by
  have h := BitMap.numClear_mark (m := .ofSize 256) hg (BitMap.test_ofSize 256)
  rw [BitMap.numClear_ofSize] at h
  unfold allBut
  omega

/-- Unless a process gets every frame, there is one around any of its frames, at a given
distance, that is not its own. -/
theorem exists_foreign {n i : ℕ} (hn : n < 256) (hi : i < n) {q : Int} (hq : q ≠ 0) :
    ∃ map : BitMap, map.numBits = 256 ∧ n ≤ map.numClear ∧
      (map.finds n).getD i 0 + q ∉ map.finds n := by
  have key : ∀ g < 256, (∀ k < n, ((if i < g then i else i + 1 : ℕ) : Int) + q ≠
      (if k < g then k else k + 1 : ℕ)) → ∃ map : BitMap, map.numBits = 256 ∧ n ≤ map.numClear ∧
      (map.finds n).getD i 0 + q ∉ map.finds n := by
    intro g hg hk
    refine ⟨allBut g, rfl, by rw [numClear_allBut hg]; omega, ?_⟩
    rw [finds_allBut hn]
    simp only [List.getD_eq_getElem?_getD, List.getElem?_map, List.getElem?_range hi,
      Option.map_some, Option.getD_some, List.mem_map, List.mem_range, not_exists, not_and]
    exact fun k hkn h => hk k hkn h.symm
  rcases lt_or_gt_of_ne hq with hneg | hpos
  · refine key ((i + 1 : Int) + q).toNat (by omega) fun k hk => ?_
    split <;> split <;> omega
  · refine key (min ((i : Int) + q).toNat n) (by omega) fun k hk => ?_
    split <;> split <;> omega

/-! ## Confinement -/

theorem confined_of_confining (hc : h.Confining) : h.LoadsConfined := by
  intro f stack map _ hm hbits hclear
  rcases hc with hc | hc | ⟨hpage, hstays⟩
  · exact absurd hm hc
  · have := BitMap.card_marked_add_numClear map
    omega
  · refine ⟨hpage, fun p hp k hk => ?_⟩
    obtain ⟨hi, hpos⟩ := reads_of_mem hp
    have hreads : (k : Int) < p.readable := by
      have hsmall := f.small
      rw [HostFile.length_readPartial] at hk
      simp only [Piece.readable]
      omega
    rw [into_entriesOf]
    rcases hstays p hp (by omega) with ⟨h0, h1⟩ | ⟨hall, h0, h1⟩
    · refine ⟨(map.finds h.numPages.toNat).getD p.page 0, ?_, by omega, by omega⟩
      rw [List.getD_eq_getElem?_getD, List.getElem?_eq_getElem (by simpa using hi)]
      exact List.getElem_mem _
    · have hfree : ∀ i < map.numBits, map.test i = false := by
        have hcard := BitMap.card_marked_add_numClear map
        have hnone : map.marked = ∅ := Finset.card_eq_zero.mp (by omega)
        intro i hi
        by_contra ht
        have : i ∈ map.marked := by simpa [hi] using ht
        simp [hnone] at this
      have hframes := finds_clear (n := h.numPages.toNat) (by omega) hfree
      rw [getD_finds_clear (by omega) hfree hi]
      generalize hx : h.code.virtualAddr.toInt + p.page * PageSize + p.offset + k = x
      refine ⟨x / 512, ?_, ?_, ?_⟩
      · rw [hframes, List.mem_map]
        simp only [PageSize] at h0 h1 hx
        exact ⟨(x / 512).toNat, by rw [List.mem_range]; omega, by omega⟩
      · simp only [PageSize]
        omega
      · simp only [PageSize]
        omega

theorem confining_of_confined (hc : h.LoadsConfined) : h.Confining := by
  by_cases hm : h.noffMagic = NOFFMAGIC
  swap
  · exact .inl hm
  by_cases hn : 256 < h.numPages.toNat
  · exact .inr (.inl hn)
  have hload := hc h.largest [] (.ofSize 256) (read_largest h []) hm rfl (by simp; omega)
  refine .inr (.inr ⟨hload.page, fun p hp hpos => ?_⟩)
  obtain ⟨hi, hposition⟩ := reads_of_mem hp
  have hlen := length_readPartial_largest h hposition
  by_cases hall : h.numPages.toNat = 256
  · -- the frames are all there are
    right
    have hin : ∀ k : ℕ, (k : Int) < p.readable →
        0 ≤ h.code.virtualAddr.toInt + p.page * 512 + p.offset + k ∧
        h.code.virtualAddr.toInt + p.page * 512 + p.offset + k < 256 * 512 := by
      intro k hk
      obtain ⟨r, hr, hlo, hhi⟩ := hload.bytes p hp k (by omega)
      have hn : h.numPages.toNat ≤ (BitMap.ofSize 256).numBits := by show _ ≤ 256; omega
      have hfree : ∀ i < (BitMap.ofSize 256).numBits, (BitMap.ofSize 256).test i = false :=
        fun i _ => BitMap.test_ofSize 256
      rw [into_entriesOf, getD_finds_clear hn hfree hi] at hlo hhi
      rw [finds_clear hn hfree, List.mem_map] at hr
      obtain ⟨i, hir, rfl⟩ := hr
      rw [List.mem_range] at hir
      simp only [PageSize] at hlo hhi
      omega
    have hfirst := hin 0 (by omega)
    have hlast := hin (p.readable - 1).toNat (by omega)
    simp only [PageSize]
    omega
  · -- a byte outside the page would be in a frame that another process may have
    left
    have hin : ∀ k : ℕ, (k : Int) < p.readable →
        (h.code.virtualAddr.toInt + p.offset + k) / 512 = 0 := by
      intro k hk
      by_contra hq
      obtain ⟨map, hbits, hfree, hforeign⟩ := exists_foreign (by omega) hi hq
      obtain ⟨r, hr, hlo, hhi⟩ := (hc h.largest [] map (read_largest h []) hm hbits hfree).bytes
        p hp k (by omega)
      rw [into_entriesOf] at hlo hhi
      simp only [PageSize] at hlo hhi
      refine hforeign ?_
      convert hr using 1
      omega
    have hfirst := hin 0 (by omega)
    have hlast := hin (p.readable - 1).toNat (by omega)
    simp only [PageSize]
    omega

/-! ## Sizes -/

/-- The headers that are not loaded at all, that have nothing to load, or whose segments
fill at most the new pages and are moved by `code.virtualAddr` at most inside the first one.
If the process gets all frames, they may be moved anywhere. -/
def Fits (h : NoffHeader) : Prop :=
  h.noffMagic ≠ NOFFMAGIC ∨ 256 < h.numPages.toNat ∨
  (-512 < h.code.size.toInt ∧ h.code.size.toInt < 0 ∧ h.initData.size.toInt ≤ 0 ∧
    -2 ^ 31 ≤ h.initData.size.toInt + h.code.size.toInt) ∨
  (0 ≤ h.code.size.toInt ∧ -h.code.size.toInt % 512 ≤ h.initData.size.toInt + 2 ^ 31 ∧
    h.extent ≤ h.numPages.toNat * 512 ∧
    (h.extent = 0 ∨ h.code.virtualAddr.toInt = 0 ∨ 0 ≤ h.code.virtualAddr.toInt ∧
      h.code.virtualAddr.toInt + h.extent ≤ if h.numPages.toNat = 256 then 256 * 512 else 512))

instance : Decidable h.Fits := inferInstanceAs (Decidable (_ ∨ _))

/-- The same segments at other places of a file. -/
def located (h : NoffHeader) (code initData : BitVec 32) : NoffHeader :=
  { h with
    code := { h.code with inFileAddr := code }
    initData := { h.initData with inFileAddr := initData } }

/-- The division of C rounds a negative size up. -/
theorem toInt_numCodePage (hc : h.code.size.toInt < 0) :
    h.numCodePage.toInt = -(-h.code.size.toInt / 512) := by
  have hp : (BitVec.ofNat 32 PageSize).toInt = 512 := by decide
  have hdiv : (h.code.size.sdiv (BitVec.ofNat 32 PageSize)).toInt = -(-h.code.size.toInt / 512) := by
    rw [BitVec.toInt_sdiv_of_ne_or_ne _ _ (.inr (by decide)), hp,
      ← Int.tdiv_eq_ediv_of_nonneg (by omega), Int.neg_tdiv, neg_neg]
  have hrem : ¬(0#32).slt (h.code.size.srem (BitVec.ofNat 32 PageSize)) = true := by
    rw [BitVec.slt_iff_toInt_lt, BitVec.toInt_srem, hp]
    have hneg := Int.tmod_nonneg (a := -h.code.size.toInt) 512 (by omega)
    rw [Int.neg_tmod] at hneg
    simpa using hneg
  rw [numCodePage, sdivRoundUp, if_neg hrem, ← hdiv]
  exact congrArg BitVec.toInt (BitVec.add_zero _)

/-- A small negative size of the code leaves a last page before the first one. -/
theorem code_of_negative (h0 : h.code.size.toInt < 0) (h1 : -512 < h.code.size.toInt) :
    h.numCodePage = 0 ∧ (h.lastCodePageSize.toNat : Int) = h.code.size.toInt + 512 := by
  have hn : h.numCodePage = 0 := by
    apply BitVec.eq_of_toInt_eq
    rw [toInt_numCodePage h0]
    show _ = 0
    omega
  refine ⟨hn, ?_⟩
  rw [lastCodePageSize, hn]
  have hcs := Word.toInt_toNat h.code.size
  simp [PageSize, BitVec.toNat_sub]
  omega

variable {code initData : BitVec 32}

/-- The places in the file decide nothing but the positions. -/
theorem mem_pieces_located {p : Piece} (hp : p ∈ (h.located code initData).pieces) :
    ∃ q ∈ (h.located 0 0).pieces,
      q.page = p.page ∧ q.offset = p.offset ∧ q.numBytes = p.numBytes := by
  simp only [pieces, List.mem_append, List.mem_map, List.mem_range] at hp ⊢
  rcases hp with (⟨i, hi, rfl⟩ | hp) | ⟨j, hj, rfl⟩
  · exact ⟨_, .inl (.inl ⟨i, hi, rfl⟩), rfl, rfl, rfl⟩
  · split at hp
    · rename_i hcond
      simp only [List.mem_singleton] at hp
      subst hp
      have hcond : (h.located 0 0).lastCodePageSize.toInt < (PageSize : Int) ∧
          0 < (h.located 0 0).firstDataPageSize.toInt := hcond
      rw [if_pos hcond]
      exact ⟨_, .inl (.inr (List.mem_singleton_self _)), rfl, rfl, rfl⟩
    · simp at hp
  · exact ⟨_, .inr ⟨j, hj, rfl⟩, rfl, rfl, rfl⟩

/-- In a file that begins with both segments no position is out of range. -/
theorem piece_of_located (hc : 0 ≤ h.code.size.toInt)
    (hw : -h.code.size.toInt % 512 ≤ h.initData.size.toInt + 2 ^ 31) {p : Piece}
    (hp : p ∈ (h.located 0 0).pieces) :
    p.Of 0 0 h.code.size.toNat ∨ p.Of 0 h.code.size.toNat h.initData.size.toInt.toNat := by
  have h1 := Word.toInt_toNat h.code.size
  have h2 := Word.toInt_toNat h.initData.size
  exact piece_of (h := h.located 0 0) hc hw
    (fun _ => ⟨le_rfl, by show 0 + h.code.size.toInt < _; omega⟩)
    (fun _ => ⟨le_rfl, by show 0 + h.initData.size.toInt < _; omega⟩) hp

/-- With less than nothing of both segments, nothing is read. -/
theorem pieces_of_negative (hc : -512 < h.code.size.toInt) (hc' : h.code.size.toInt < 0)
    (hd : h.initData.size.toInt ≤ 0) (hd' : -2 ^ 31 ≤ h.initData.size.toInt + h.code.size.toInt) :
    h.pieces = [] := by
  obtain ⟨hn, hl⟩ := code_of_negative hc' hc
  have hds := Word.toInt_toNat h.initData.size
  have htemp := toNat_tempDataSize (h := h) (by omega) (by omega)
  obtain ⟨hnum, hfirst⟩ := data_of_negative (h := h) (by omega)
  rw [pieces, hn, hnum, hfirst, if_neg (by omega)]
  rfl

/-- Which pages are used, and whether the bytes stay in them, for segments that fit. -/
theorem stays_of_fits (hc : 0 ≤ h.code.size.toInt)
    (hw : -h.code.size.toInt % 512 ≤ h.initData.size.toInt + 2 ^ 31)
    (hext : h.extent ≤ h.numPages.toNat * 512)
    (hmove : h.extent = 0 ∨ h.code.virtualAddr.toInt = 0 ∨ 0 ≤ h.code.virtualAddr.toInt ∧
      h.code.virtualAddr.toInt + h.extent ≤ if h.numPages.toNat = 256 then 256 * 512 else 512)
    {p : Piece} (hp : p ∈ (h.located code initData).pieces) :
    p.page < h.numPages.toNat ∧ p.Stays h := by
  obtain ⟨q, hq, hpage, hoffset, hbytes⟩ := mem_pieces_located hp
  have hcs := Word.toNat_of_nonneg hc
  have hext' : h.extent = h.code.size.toInt + max h.initData.size.toInt 0 := rfl
  have hread : p.readable ≤ q.numBytes := by
    rw [hbytes]
    exact min_le_left _ _
  have hshape : 0 ≤ q.offset ∧ 0 < q.numBytes ∧ q.offset + q.numBytes ≤ 512 ∧
      q.page * 512 + q.offset + q.numBytes ≤ h.extent := by
    rcases piece_of_located hc hw hq with ⟨h0, h1, h2, h3, h4, -⟩ | ⟨h0, h1, h2, h3, h4, -⟩ <;>
    simp only [PageSize] at h2 h4 <;> exact ⟨h0, h1, h2, by omega⟩
  rw [Piece.Stays, ← hpage, ← hoffset]
  simp only [PageSize]
  split at hmove <;> omega

theorem confining_of_fits (hf : h.Fits) : (h.located code initData).Confining := by
  rcases hf with hm | hn | ⟨hc, hc', hd, hd'⟩ | ⟨hc, hw, hext, hmove⟩
  · exact .inl hm
  · exact .inr (.inl hn)
  · have hnil := pieces_of_negative (h := h.located code initData) hc hc' hd hd'
    refine .inr (.inr ⟨?_, ?_⟩)
    · simp [attempted, hnil]
    · simp [piecesRead, hnil]
  · refine .inr (.inr ⟨fun p hp => ?_, fun p hp _ => ?_⟩)
    · exact (stays_of_fits hc hw hext hmove (List.mem_of_mem_take hp)).1
    · exact (stays_of_fits hc hw hext hmove (mem_pieces_of_read hp)).2

/-- The first piece beyond the table is attempted, if `Lseek` takes the ones before it. -/
theorem exists_attempted (hp : ∃ p ∈ h.pieces, h.numPages.toNat ≤ p.page)
    (hpos : ∀ q ∈ h.pieces, q.page < h.numPages.toNat → 0 ≤ q.position) :
    ∃ p ∈ h.attempted, h.numPages.toNat ≤ p.page := by
  obtain ⟨p, hmem, hpage⟩ := hp
  have hsome : (h.pieces.find? fun q => h.numPages.toNat ≤ q.page).isSome := by
    rw [List.find?_isSome]
    exact ⟨p, hmem, by simpa using hpage⟩
  obtain ⟨q, hq⟩ := Option.isSome_iff_exists.mp hsome
  obtain ⟨hqn, l₁, l₂, hl, hbefore⟩ := List.find?_eq_some_iff_append.mp hq
  refine ⟨q, ?_, by simpa using hqn⟩
  have hread : l₁ <+: h.piecesRead := by
    have hall : ∀ r ∈ l₁, decide (h.Reads r) = true := by
      intro r hr
      have hlt : r.page < h.numPages.toNat := by simpa using hbefore r hr
      exact decide_eq_true ⟨hlt, hpos r (by simp [hl, hr]) hlt⟩
    rw [piecesRead, hl, List.takeWhile_append_of_pos hall]
    exact List.prefix_append _ _
  rw [attempted, hl, List.take_append]
  have := hread.length_le
  refine List.mem_append_right _ ?_
  obtain ⟨k, hk⟩ : ∃ k, h.piecesRead.length + 1 - l₁.length = k + 1 := ⟨_, (Nat.succ_pred (by omega)).symm⟩
  rw [hk, List.take_succ_cons]
  exact List.mem_cons_self

/-- The last code page has some byte, whatever the sign of the size. -/
theorem lastCodePageSize_mem (hn : h.numCodePage.toNat < 2 ^ 31) :
    1 ≤ h.lastCodePageSize.toNat ∧ h.lastCodePageSize.toNat ≤ 512 := by
  have hcs := Word.toInt_toNat h.code.size
  by_cases hc : 0 ≤ h.code.size.toInt
  · obtain ⟨h1, h2, -⟩ := lastCodePageSize_spec (Word.toNat_of_nonneg hc).2
    exact ⟨h1, h2⟩
  · have hnum := toInt_numCodePage (h := h) (by omega)
    rw [Word.toInt_of_lt hn] at hnum
    obtain ⟨-, hl⟩ := code_of_negative (h := h) (by omega) (by omega)
    omega

theorem position_located {p : Piece} (hp : p ∈ (h.located 0 0).pieces) (hn : p.page < 256) :
    0 ≤ p.position := by
  have hzero : ∀ k : ℕ, k < 2 ^ 31 → (0 + BitVec.ofNat 32 k).toInt = k := by
    intro k hk
    rw [show (0 : BitVec 32) = 0#32 from rfl, BitVec.zero_add, Word.toInt_ofNat hk]
  simp only [pieces, List.mem_append, List.mem_map, List.mem_range] at hp
  rcases hp with (⟨i, hi, rfl⟩ | hp) | ⟨j, hj, rfl⟩
  · simp only [PageSize] at hn ⊢
    rw [show (h.located 0 0).code.inFileAddr = 0 from rfl, hzero _ (by omega)]
    omega
  · split at hp
    · simp only [List.mem_singleton] at hp
      subst hp
      exact le_rfl
    · simp at hp
  · simp only [PageSize] at hn ⊢
    have hn' : (h.located 0 0).numCodePage.toNat < 2 ^ 31 := by omega
    obtain ⟨hl1, hl2⟩ := lastCodePageSize_mem hn'
    by_cases hneg : 2 ^ 31 ≤ (h.located 0 0).tempDataSize.toNat
    · rw [(data_of_negative hneg).1] at hj
      exact absurd hj (Nat.not_lt_zero j)
    · obtain ⟨-, hfirst⟩ := data_of_nonneg hl2 (by omega)
      have hpos := hzero (j * 512 + (h.located 0 0).firstDataPageSize.toNat) (by omega)
      rw [BitVec.ofNat_add, BitVec.ofNat_toNat, BitVec.setWidth_eq, ← BitVec.add_assoc] at hpos
      rw [show (h.located 0 0).initData.inFileAddr = 0 from rfl, hpos]
      omega

/-- Code or data that is not where its size says leads beyond the page table. -/
theorem sizes_of_pages (hn : h.numPages.toNat ≤ 256)
    (hpage : ∀ p ∈ (h.located 0 0).pieces, p.page < h.numPages.toNat) :
    (-512 < h.code.size.toInt ∧ h.code.size.toInt < 0 ∧ h.initData.size.toInt ≤ 0 ∧
      -2 ^ 31 ≤ h.initData.size.toInt + h.code.size.toInt) ∨
    (0 ≤ h.code.size.toInt ∧ -h.code.size.toInt % 512 ≤ h.initData.size.toInt + 2 ^ 31) := by
  have hcs := Word.toInt_toNat h.code.size
  have hds := Word.toInt_toNat h.initData.size
  have hcode : h.numCodePage.toNat ≤ 256 := by
    by_contra hmany
    have hmem : _ ∈ (h.located 0 0).pieces :=
      List.mem_append_left _ (List.mem_append_left _ (List.mem_map_of_mem
        (List.mem_range.mpr (show h.numPages.toNat < h.numCodePage.toNat by omega))))
    exact absurd (hpage _ hmem) (lt_irrefl _)
  obtain ⟨hl1, hl2⟩ := lastCodePageSize_mem (h := h) (by omega)
  have htemp := toNat_tempDataSize hl1 hl2
  have hdata : h.numDataPage.toNat ≤ 256 := by
    by_contra hmany
    have hmem : _ ∈ (h.located 0 0).pieces :=
      List.mem_append_right _ (List.mem_map_of_mem
        (List.mem_range.mpr (show h.numPages.toNat < h.numDataPage.toNat by omega)))
    have := hpage _ hmem
    simp only at this
    omega
  by_cases hc : 0 ≤ h.code.size.toInt
  · refine .inr ⟨hc, ?_⟩
    by_contra hwrap
    obtain ⟨-, -, hpages⟩ := lastCodePageSize_spec (h := h) (by omega)
    obtain ⟨hnum, -⟩ := data_of_nonneg (h := h) hl2 (by omega)
    omega
  · have hnum := toInt_numCodePage (h := h) (by omega)
    rw [Word.toInt_of_lt (by omega)] at hnum
    obtain ⟨hzero, hlast⟩ := code_of_negative (h := h) (by omega) (by omega)
    have hlasti : h.lastCodePageSize.toInt = h.lastCodePageSize.toNat := Word.toInt_of_lt (by omega)
    -- data behind the code would go to a page before the first
    have hfirst : h.firstDataPageSize.toInt ≤ 0 := by
      by_contra hsome
      have hcond : (h.located 0 0).lastCodePageSize.toInt < (PageSize : Int) ∧
          0 < (h.located 0 0).firstDataPageSize.toInt :=
        ⟨by simp only [PageSize]; show h.lastCodePageSize.toInt < _; omega, by
          show 0 < h.firstDataPageSize.toInt; omega⟩
      have hmem : _ ∈ (h.located 0 0).pieces :=
        List.mem_append_left _ (List.mem_append_right _ (by
          rw [if_pos hcond]
          exact List.mem_singleton_self _))
      have := hpage _ hmem
      rw [show (h.located 0 0).numCodePage = 0 from hzero] at this
      simp at this
      omega
    by_cases hneg : 2 ^ 31 ≤ h.tempDataSize.toNat
    · rw [(data_of_negative hneg).2] at hfirst
      exact .inl ⟨by omega, by omega, hfirst, by omega⟩
    · obtain ⟨-, hsum⟩ := data_of_nonneg (h := h) hl2 (by omega)
      rw [Word.toInt_of_lt (by omega)] at hfirst
      omega

/-- In a file that begins with both segments, every piece is read in full if its page is there. -/
theorem read_of_located (hc : 0 ≤ h.code.size.toInt)
    (hw : -h.code.size.toInt % 512 ≤ h.initData.size.toInt + 2 ^ 31)
    (hpages : ∀ p ∈ (h.located 0 0).pieces, p.page < h.numPages.toNat) {p : Piece}
    (hp : p ∈ (h.located 0 0).pieces) : p ∈ (h.located 0 0).piecesRead ∧
      p.readable = p.numBytes ∧ 0 ≤ p.offset ∧ 0 < p.numBytes ∧ p.offset + p.numBytes ≤ 512 := by
  have hcs := Word.toNat_of_nonneg hc
  have hds := Word.toInt_toNat h.initData.size
  have hof : ∀ q ∈ (h.located 0 0).pieces,
      0 ≤ q.position ∧ q.position + q.numBytes < 2 ^ 31 ∧ 0 ≤ q.offset ∧ 0 < q.numBytes ∧
        q.offset + q.numBytes ≤ 512 := by
    intro q hq
    rcases piece_of_located hc hw hq with ⟨h0, h1, h2, h3, h4, h5⟩ | ⟨h0, h1, h2, h3, h4, h5⟩ <;>
    simp only [PageSize] at h2 h3 h4 h5 <;> omega
  obtain ⟨hpos, hle, hshape⟩ := hof p hp
  refine ⟨?_, ?_, hshape⟩
  · have hloads : (h.located 0 0).Loads := fun q hq => ⟨hpages q hq, (hof q hq).1⟩
    rwa [piecesRead_of_loads hloads]
  · rw [Piece.readable]
    omega

theorem fits_of_confining (hc : (h.located 0 0).Confining) : h.Fits := by
  rcases hc with hm | hn | ⟨hpage, hstay⟩
  · exact .inl hm
  · exact .inr (.inl hn)
  by_cases hn : 256 < h.numPages.toNat
  · exact .inr (.inl hn)
  have hpages : ∀ p ∈ (h.located 0 0).pieces, p.page < h.numPages.toNat := by
    intro p hp
    by_contra hlt
    obtain ⟨q, hq, hle⟩ := exists_attempted (h := h.located 0 0) ⟨p, hp, not_lt.mp hlt⟩
      fun q hq (hlt : q.page < h.numPages.toNat) => position_located hq (by omega)
    exact absurd (hpage q hq) (not_lt.mpr hle)
  rcases sizes_of_pages (by omega) hpages with hneg | ⟨hc, hw⟩
  · exact .inr (.inr (.inl hneg))
  have hstays : ∀ p ∈ (h.located 0 0).pieces, 0 ≤ p.offset ∧ 0 < p.numBytes ∧
      p.offset + p.numBytes ≤ 512 ∧ (p.readable = p.numBytes ∧ p.Stays h) := by
    intro p hp
    obtain ⟨hread, heq, h0, h1, h2⟩ := read_of_located hc hw hpages hp
    exact ⟨h0, h1, h2, heq, hstay p hread (by omega)⟩
  have hext : h.extent ≤ h.numPages.toNat * 512 := by
    by_contra hlong
    obtain ⟨p, hp, hcov⟩ := covered (h := h.located 0 0) (v := h.numPages.toNat * 512) hc (by
      show _ < h.extent
      omega)
    obtain ⟨-, -, hin, -⟩ := hstays p hp
    have := hpages p hp
    simp only [Piece.covers, PageSize] at hcov
    omega
  refine .inr (.inr (.inr ⟨hc, hw, hext, ?_⟩))
  by_cases h0 : h.extent ≤ 0
  · left
    simp only [extent] at h0 ⊢
    omega
  · right
    -- the piece with the first byte, the one that fills page zero, and the one with the last byte
    obtain ⟨p, hp, hcp⟩ := covered (h := h.located 0 0) (v := 0) hc (by
      show _ < h.extent
      omega)
    obtain ⟨q, hq, hcq⟩ := covered (h := h.located 0 0) (v := (min h.extent 512 - 1).toNat) hc (by
      show _ < h.extent
      omega)
    obtain ⟨r, hr, hcr⟩ := covered (h := h.located 0 0) (v := (h.extent - 1).toNat) hc (by
      show _ < h.extent
      omega)
    obtain ⟨hp1, hp2, hp3, hp4, hp5⟩ := hstays p hp
    obtain ⟨hq1, hq2, hq3, hq4, hq5⟩ := hstays q hq
    obtain ⟨hr1, hr2, hr3, hr4, hr5⟩ := hstays r hr
    have := hpages r hr
    simp only [Piece.covers, Piece.Stays, PageSize] at *
    split <;> omega

end NoffHeader

/-- Loading stays in the frames of the process exactly if the pieces read stay in pages that
are there. Wherever in the file the segments are, this is so exactly for the headers that
fit. -/
theorem loadsConfined_iff (h : NoffHeader) :
    (h.LoadsConfined ↔ h.Confining) ∧
    ((∀ code initData, (h.located code initData).LoadsConfined) ↔ h.Fits) := by
  refine ⟨⟨NoffHeader.confining_of_confined, NoffHeader.confined_of_confining⟩, ?_, ?_⟩
  · intro hload
    exact NoffHeader.fits_of_confining (NoffHeader.confining_of_confined (hload 0 0))
  · intro hfits code initData
    exact NoffHeader.confined_of_confining (NoffHeader.confining_of_fits hfits)

/-- Four bytes of code, three pages from where they belong. -/
def displacedProgram : HostFile where
  contents := [NOFFMAGIC, 1536, 40, 4, 0, 0, 0, 0, 0, 0].flatMap Bytes.ofWord ++
    [0x0c#8, 0#8, 0#8, 0#8]
  small := by decide

/-- The process gets the first three frames, and its code goes to the fourth, which
another process has. -/
theorem load_not_confined :
    (NoffHeader.read displacedProgram []).noffMagic = NOFFMAGIC ∧
    (NoffHeader.read displacedProgram []).numPages = 3 ∧ (NoffHeader.allBut 3).numClear = 255 ∧
    ¬(NoffHeader.read displacedProgram []).Confined displacedProgram
      ((NoffHeader.allBut 3).finds 3) := by
  refine ⟨by decide +kernel, by decide +kernel, by decide +kernel, fun hc => ?_⟩
  exact absurd (hc.bytes ⟨0, 0, 4, 40⟩ (by decide +kernel) 0 (by decide +kernel)) (by decide +kernel)

end Nachos
