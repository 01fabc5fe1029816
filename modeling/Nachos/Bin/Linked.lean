import Nachos.Bin.Image
import Nachos.Machine.FlatMemory

/-!
# From the linker to the machine

A program goes through `coff2noff` and a constructor of `AddrSpace` into whatever frames are free.
If it is laid out as the linker script does it, the machine then reads at each address what the
linker has put there.
-/
namespace Nachos.Coff2noff

open Bytes (Byte)
open Command (bind_eq_some)
open NoffHeader (frameAddr)

variable {coff out : HostFile} {s : Scnhdr} {l : List Scnhdr} {c c' : Conversion}
  {stack : NoffHeader} {h : NoffHeader} {codeSize dataSize v : ℕ}

/-- The section, if it is copied, has something at address `v`. -/
def Scnhdr.Holds (s : Scnhdr) (v : ℕ) : Prop :=
  (s.Is .text ∨ s.Is .data) ∧ s.s_paddr.toNat ≤ v ∧ v < s.s_paddr.toNat + s.s_size.toNat

instance (s : Scnhdr) (v : ℕ) : Decidable (s.Holds v) := inferInstanceAs (Decidable (_ ∧ _))

/-- What the linker has put at address `v`. -/
def linkedByte (coff : HostFile) (v : ℕ) : Byte :=
  match (sections coff).find? fun s => s.Holds v with
  | some s => coff.contents.getD (s.s_scnptr.toNat + (v - s.s_paddr.toNat)) 0
  | none => 0

/-- The code is at address zero, the data that is initialised behind it, and then what is not. -/
structure LaidOut (coff : HostFile) (codeSize dataSize : ℕ) : Prop where
  inFile : ∀ s ∈ sections coff, s.Is .text ∨ s.Is .data → InFile coff s
  oneText : ∀ s ∈ sections coff, ∀ s' ∈ sections coff, s.Is .text → s'.Is .text → Alike coff s s'
  hasText : ∃ s ∈ sections coff, s.Is .text
  text : ∀ s ∈ sections coff, s.Is .text → s.s_paddr = 0 ∧ s.s_size.toNat = codeSize
  data : ∀ s ∈ sections coff, s.Is .data → s.s_paddr.toNat = codeSize ∧ s.s_size.toNat = dataSize
  noData : (∀ s ∈ sections coff, ¬s.Is .data) → dataSize = 0
  bss : ∀ s ∈ sections coff, s.Is .bss → s.s_paddr.toNat + s.s_size.toNat ≤
    codeSize + dataSize + Stretches.total (bssStretches (sections coff))
  total : codeSize + dataSize + Stretches.total (bssStretches (sections coff)) + 1024 < 2 ^ 31

/-! ## The header -/

theorem loop_noffMagic (h : loop coff l c = some ((), c')) :
    c'.noffH.noffMagic = c.noffH.noffMagic := by
  induction l generalizing c with
  | nil =>
    cases h
    rfl
  | cons s l ih =>
    obtain ⟨_, c₁, hone, h⟩ := bind_eq_some.mp h
    rw [ih h]
    rcases oneSection_cases hone with ⟨-, rfl⟩ | ⟨-, hcopy⟩ | ⟨-, -, hcopy⟩ | ⟨-, rfl⟩
    · rfl
    · rw [(copy_eq_some hcopy).1]
      rfl
    · rw [(copy_eq_some hcopy).1]
      rfl
    · rfl

/-- Without such a section the second segment is left alone. -/
theorem loop_initData (h : loop coff l c = some ((), c')) (hnone : ∀ s ∈ l, ¬s.Is .data) :
    c'.noffH.initData = c.noffH.initData := by
  induction l generalizing c with
  | nil =>
    cases h
    rfl
  | cons s l ih =>
    obtain ⟨_, c₁, hone, h⟩ := bind_eq_some.mp h
    rw [ih h fun s' hs' => hnone s' (List.mem_cons_of_mem s hs')]
    rcases oneSection_cases hone with ⟨-, rfl⟩ | ⟨-, hcopy⟩ | ⟨hk, -, -⟩ | ⟨-, rfl⟩
    · rfl
    · rw [(copy_eq_some hcopy).1]
      rfl
    · exact absurd hk (hnone s List.mem_cons_self)
    · rfl

/-- The header is read as it is in the file, whatever was on the stack. -/
theorem read_headerBytes {contents : List Byte}
    (hout : out.contents = Bytes.overwrite contents 0 (headerBytes h)) (stk : List Byte) :
    NoffHeader.read out stk = h := by
  have hne : headerBytes h ≠ [] := List.ne_nil_of_length_pos (by simp)
  have hprefix : out.readPartial 0 40 = headerBytes h := by
    rw [HostFile.readPartial, hout, Bytes.overwrite_of_le (Nat.zero_le _)]
    simp only [Bytes.overlay, List.take_zero, List.nil_append]
    exact List.take_left' rfl
  rw [NoffHeader.read, hprefix]
  exact ofBytes_headerBytes h _

/-- What a constructor finds in the file of a program that is laid out. -/
structure Converted (coff out : HostFile) (codeSize dataSize : ℕ) (h : NoffHeader) : Prop where
  read : ∀ stk, NoffHeader.read out stk = h
  magic : h.noffMagic = NOFFMAGIC
  text : ∀ s ∈ sections coff, s.Is .text → Represents coff out.contents h.code s
  data : ∀ s ∈ sections coff, s.Is .data → Represents coff out.contents h.initData s
  codeAddr : h.code.virtualAddr = 0
  codeSize : h.code.size.toNat = codeSize
  initSize : h.initData.size.toNat = dataSize
  uninitSize : h.uninitData.size.toNat = Stretches.total (bssStretches (sections coff))

theorem LaidOut.converted (hl : LaidOut coff codeSize dataSize)
    (h : coff2noff coff stack = some out) :
    ∃ noffH, Converted coff out codeSize dataSize noffH := by
  obtain ⟨c, c', hloop, hfile, hpos, hempty, hheader, hout⟩ := coff2noff_eq_some h
  have hi := loopInv_loop hloop hl.inFile hl.oneText (loopInv_start hfile hpos hempty hheader)
  have htotal := hl.total
  obtain ⟨huninit, -⟩ := uninitData_eq hloop (by rw [hheader]; rfl) (by omega)
  have htext := fun s hs hk => (hi.text s hs hk).written hk.1 hi.code hout
  have hdata := fun s hs hk => (hi.data s hs hk).written hk.1 hi.initData hout
  obtain ⟨t, ht, hk⟩ := hl.hasText
  obtain ⟨haddr, hsize⟩ := hl.text t ht hk
  refine ⟨c'.noffH, read_headerBytes hout, ?_, htext, hdata, ?_, ?_, ?_, huninit⟩
  · rw [loop_noffMagic hloop, hheader]
    rfl
  · rw [(htext t ht hk).addr, haddr]
  · rw [(htext t ht hk).size, hsize]
  · by_cases hnone : ∀ s ∈ sections coff, ¬s.Is .data
    · rw [loop_initData hloop hnone, hheader, hl.noData hnone]
      rfl
    · push Not at hnone
      obtain ⟨s, hs, hk⟩ := hnone
      rw [(hdata s hs hk).size, (hl.data s hs hk).2]

/-! ## The segments -/

theorem getD_bytesAt {contents bs : List Byte} {p n : Int} {k : ℕ}
    (h : bytesAt contents p n = some bs) (hk : k < n) :
    contents.getD (p.toNat + k) 0 = bs.getD k 0 := by
  obtain ⟨hp, hn, hfit, -⟩ := length_bytesAt h
  unfold bytesAt at h
  rw [if_pos ⟨hp, hn, hfit⟩] at h
  cases h
  rw [List.getD_eq_getElem?_getD, List.getD_eq_getElem?_getD, List.getElem?_take_of_lt (by omega),
    List.getElem?_drop]

/-- A segment has the bytes of its section. -/
theorem Represents.getD {contents : List Byte} {g : Segment} (h : Represents coff contents g s)
    {k : ℕ} (hk : k < s.s_size.toNat) : contents.getD (g.inFileAddr.toNat + k) 0 =
      coff.contents.getD (s.s_scnptr.toNat + k) 0 := by
  obtain ⟨-, hsize, bs, hin, hout⟩ := h
  obtain ⟨hp, hn, -, -⟩ := length_bytesAt hin
  obtain ⟨hp', -, -, -⟩ := length_bytesAt hout
  have hkn : (k : Int) < s.s_size.toInt := by
    rw [(Word.toNat_of_nonneg hn).1]
    exact Int.ofNat_lt.mpr hk
  have h₁ := getD_bytesAt hin hkn
  have h₂ := getD_bytesAt hout (by rwa [hsize])
  rw [Word.toNat_toInt hp] at h₁
  rw [Word.toNat_toInt hp'] at h₂
  rw [h₁, h₂]

theorem Represents.segment_inFile {g : Segment} (h : Represents coff out.contents g s) :
    g.InFile out := by
  intro _
  obtain ⟨-, -, bs, -, hout⟩ := h
  obtain ⟨hp, -, hfit, -⟩ := length_bytesAt hout
  exact ⟨hp, hfit⟩

namespace Converted

variable (hc : Converted coff out codeSize dataSize h)

include hc

/-- The loader does not look at where the data should be. -/
theorem layout (hl : LaidOut coff codeSize dataSize) :
    ({ h with initData := { h.initData with virtualAddr := h.code.size } } : NoffHeader).Layout := by
  have htotal := hl.total
  have hcode := hc.codeSize
  have hinit := hc.initSize
  have huninit := hc.uninitSize
  have h₁ := Word.toInt_of_lt (x := h.code.size) (by omega)
  have h₂ := Word.toInt_of_lt (x := h.initData.size) (by omega)
  have h₃ := Word.toInt_of_lt (x := h.uninitData.size) (by omega)
  refine ⟨hc.codeAddr, rfl, ?_, ?_, ?_, ?_⟩ <;> simp only [h₁, h₂, h₃] <;> omega

theorem code_inFile (hl : LaidOut coff codeSize dataSize) : h.code.InFile out := by
  obtain ⟨t, ht, hk⟩ := hl.hasText
  exact (hc.text t ht hk).segment_inFile

theorem initData_inFile (hl : LaidOut coff codeSize dataSize) : h.initData.InFile out := by
  intro hne
  by_cases hnone : ∀ s ∈ sections coff, ¬s.Is .data
  · refine absurd (BitVec.eq_of_toNat_eq ?_) hne
    rw [hc.initSize, hl.noData hnone]
    rfl
  · push Not at hnone
    obtain ⟨s, hs, hk⟩ := hnone
    exact (hc.data s hs hk).segment_inFile hne

theorem image_eq (hl : LaidOut coff codeSize dataSize) (v : ℕ) :
    h.image out v = linkedByte coff v := by
  rw [NoffHeader.image, hc.codeSize, hc.initSize, linkedByte]
  cases hfind : (sections coff).find? fun s => s.Holds v with
  | some s =>
    have hs := List.mem_of_find?_eq_some hfind
    obtain ⟨hk, hle, hlt⟩ : s.Holds v := by simpa using List.find?_some hfind
    show _ = coff.contents.getD (s.s_scnptr.toNat + (v - s.s_paddr.toNat)) 0
    rcases hk with hk | hk
    · obtain ⟨haddr, hsize⟩ := hl.text s hs hk
      have hzero : s.s_paddr.toNat = 0 := by rw [haddr]; rfl
      rw [if_pos (by omega), (hc.text s hs hk).getD (by omega), hzero, Nat.sub_zero]
    · obtain ⟨haddr, hsize⟩ := hl.data s hs hk
      rw [if_neg (by omega), if_pos (by omega), (hc.data s hs hk).getD (by omega), haddr]
  | none =>
    rw [List.find?_eq_none] at hfind
    have hnot : ∀ s ∈ sections coff, ¬s.Holds v := fun s hs => by simpa using hfind s hs
    have hcode : ¬v < codeSize := by
      intro hlt
      obtain ⟨t, ht, hk⟩ := hl.hasText
      obtain ⟨haddr, hsize⟩ := hl.text t ht hk
      refine hnot t ht ⟨.inl hk, ?_, ?_⟩
      · rw [haddr]
        exact Nat.zero_le v
      · omega
    have hdata : ¬v < codeSize + dataSize := by
      intro hlt
      by_cases hnone : ∀ s ∈ sections coff, ¬s.Is .data
      · have := hl.noData hnone
        omega
      · push Not at hnone
        obtain ⟨s, hs, hk⟩ := hnone
        obtain ⟨haddr, hsize⟩ := hl.data s hs hk
        exact hnot s hs ⟨.inr hk, by omega, by omega⟩
    rw [if_neg hcode, if_neg hdata]

/-- All sections have their place below the stack. -/
theorem room (hl : LaidOut coff codeSize dataSize) (hs : s ∈ sections coff) {k : Kind}
    (hk : s.Is k) : s.s_paddr.toNat + s.s_size.toNat + 1024 ≤ h.numPages.toNat * PageSize := by
  have hpages := NoffHeader.toNat_numPages (hc.layout hl).linked
  have hsame : ({ h with initData := { h.initData with virtualAddr := h.code.size } } :
      NoffHeader).numPages = h.numPages := rfl
  have hcode := hc.codeSize
  have hinit := hc.initSize
  have huninit := hc.uninitSize
  have hbelow : s.s_paddr.toNat + s.s_size.toNat ≤
      codeSize + dataSize + Stretches.total (bssStretches (sections coff)) := by
    cases k with
    | text =>
      obtain ⟨haddr, hsize⟩ := hl.text s hs hk
      have hzero : s.s_paddr.toNat = 0 := by rw [haddr]; rfl
      omega
    | data =>
      obtain ⟨haddr, hsize⟩ := hl.data s hs hk
      omega
    | bss => exact hl.bss s hs hk
  rw [hsame] at hpages
  simp only [PageSize] at hpages ⊢
  omega

/-- The constructors accept the file, and the image is in the new pages. -/
theorem construct (hl : LaidOut coff codeSize dataSize) (stk : List Byte) (a : ℕ)
    (m : Bytes.Memory) {numClear : ℕ} {frames : List Int} (hlen : frames.length = h.numPages.toNat)
    (hclear : frames.length ≤ numClear) (hn : frames.Nodup) :
    ∃ m', NoffHeader.construct out stk numClear frames a m =
        some (⟨.allocated a, h.numPages, NoffHeader.entriesOf frames⟩, m') ∧
      ∀ v, v < frames.length * PageSize → m' (frameAddr frames v) = linkedByte coff v := by
  have hlayout := hc.layout hl
  have hcode := hc.code_inFile hl
  have hdata := hc.initData_inFile hl
  have hloads : h.Loads := by
    intro p hp
    rcases hlayout.piece_of hcode hdata hp with hof | hof
    · have := hof.position
      have := hof.lower
      exact ⟨hlen ▸ hlayout.page_lt hlen hof (by omega), by omega⟩
    · have := hof.position
      have := hof.lower
      exact ⟨hlen ▸ hlayout.page_lt hlen hof le_rfl, by omega⟩
  refine ⟨h.loaded out frames m, ?_, fun v hv => ?_⟩
  · rw [NoffHeader.construct, hc.read]
    rw [if_neg (not_not.mpr hc.magic), if_neg (by omega), if_neg (not_not.mpr hloads)]
  · rw [← hc.image_eq hl]
    exact hlayout.loaded_at hcode hdata hloads hn hlen hv

end Converted

/-- A program that is laid out, converted and loaded is in the machine what the linker has made,
whatever frames it gets: `ReadMem` reads the bytes of its sections at their addresses, zeros
elsewhere, and its pages have room for all of it and the stack. -/
theorem runs_as_linked (hl : LaidOut coff codeSize dataSize) (h : coff2noff coff stack = some out)
    (stk : List Byte) {numClear : ℕ} (a : ℕ) {frames : List Int} (m : Bytes.Memory)
    (hlen : frames.length = (NoffHeader.read out stk).numPages.toNat)
    (hclear : frames.length ≤ numClear) (hn : frames.Nodup)
    (hf : ∀ r ∈ frames, 0 ≤ r ∧ r < NumPhysPages) :
    ∃ s m', NoffHeader.construct out stk numClear frames a m = some (s, m') ∧
      s.frames = frames ∧
      (∀ x ∈ sections coff, ∀ k, x.Is k →
        x.s_paddr.toNat + x.s_size.toNat + 1024 ≤ s.numPages.toNat * PageSize) ∧
      ∀ M : Mips.Machine, M.memory = s.restored m' → ∀ addr size, AccessSize size →
        Aligned addr size → addr.toNat + size ≤ s.numPages.toNat * PageSize →
        ∃ M', M.readMem addr size = .done (Flat.value
            ((List.range size).map fun i => linkedByte coff (addr.toNat + i))) M' ∧
          M'.registers = M.registers := by
  obtain ⟨noffH, hc⟩ := hl.converted h
  rw [hc.read] at hlen
  obtain ⟨m', hconstruct, hbytes⟩ := hc.construct hl stk a m hlen hclear hn
  refine ⟨_, m', hconstruct, ?_, fun x hx k hk => hc.room hl hx hk, ?_⟩
  · rw [AddrSpace.frames, NoffHeader.entriesOf, List.map_map]
    exact List.zipIdx_map_fst 0 frames
  intro M hM addr size hsize halign hin
  replace hin : addr.toNat + size ≤ noffH.numPages.toNat * PageSize := hin
  have hmapped : ∀ x : BitVec 32, x.toNat < noffH.numPages.toNat * PageSize →
      M.memory.Mapped x false ∧ M.memory.byte x = linkedByte coff x.toNat := by
    intro x hx
    obtain ⟨hmap, hplace⟩ := AddrSpace.restored_mapped
      (s := ⟨.allocated a, noffH.numPages, NoffHeader.entriesOf frames⟩) (m := m') rfl hlen hf hx
      false
    rw [hM]
    refine ⟨hmap, ?_⟩
    rw [UserMemory.byte, hplace, AddrSpace.restored_mainMemory, hbytes]
    rw [hlen]
    exact hx
  have hfirst : addr.toNat < noffH.numPages.toNat * PageSize := by
    have : 0 < size := by rcases hsize with rfl | rfl | rfl <;> decide
    exact Nat.lt_of_lt_of_le (by omega) hin
  obtain ⟨M', hread, hregs, -⟩ := Mips.Machine.readMem_touched hsize halign (hmapped addr hfirst).1
  refine ⟨M', ?_, hregs⟩
  rw [hread]
  congr 2
  refine List.map_congr_left fun i hi => ?_
  obtain ⟨hsum, -⟩ := halign.page hsize (List.mem_range.mp hi)
  rw [← hsum]
  exact (hmapped _ (by rw [hsum]; have := List.mem_range.mp hi; omega)).2

/-- The first instruction of a program. -/
theorem runs_as_linked_textFile : ∃ out s m', coff2noff textFile noStack = some out ∧
    NoffHeader.construct out [] 128 [5, 0, 2] 0 (fun _ => 1) = some (s, m') ∧
    ∀ M : Mips.Machine, M.memory = s.restored m' → ∃ M', M.readMem 0 4 = .done 0x04030201 M' := by
  obtain ⟨out, hout⟩ := Option.isSome_iff_exists.mp
    (by decide +kernel : (coff2noff textFile noStack).isSome = true)
  have hl : LaidOut textFile 4 0 := by
    constructor
    · unfold InFile
      decide +kernel
    · unfold Alike
      decide +kernel
    all_goals decide +kernel
  have hpages : (coff2noff textFile noStack).map (fun f => (NoffHeader.read f []).numPages) =
      some 3 := by decide +kernel
  rw [hout, Option.map_some, Option.some.injEq] at hpages
  obtain ⟨s, m', hs, -, hroom, hread⟩ := runs_as_linked hl hout [] 0 (fun _ => 1)
    (show ([5, 0, 2] : List Int).length = _ by rw [hpages]; rfl)
    (show ([5, 0, 2] : List Int).length ≤ 128 by decide) (by decide) (by decide)
  refine ⟨out, s, m', hout, hs, fun M hM => ?_⟩
  obtain ⟨t, ht, hk⟩ := hl.hasText
  have htext := hroom t ht .text hk
  obtain ⟨M', hM', -⟩ := hread M hM 0 4 (.inr (.inr rfl)) rfl
    (show 0 + 4 ≤ s.numPages.toNat * PageSize by omega)
  exact ⟨M', hM'⟩

end Nachos.Coff2noff
