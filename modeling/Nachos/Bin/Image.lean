import Nachos.Bin.Coff2noff
import Nachos.Lib.EndToEnd
import Nachos.Lib.Word

/-!
# The image that `coff2noff` makes

For a file it accepts, the converter preserves the program exactly if the sections it copies are
in the file, there is in effect one `.text`, and the `.bss` sections lie end to end, beginning
with the first. It refuses them in that order only.
-/
namespace Nachos.Coff2noff

open Bytes (Byte)
open Command (bind_eq_some)

variable {coff out : HostFile} {s : Scnhdr} {l : List Scnhdr} {c c' : Conversion}
  {stack : NoffHeader} {bs bs' : List Byte} {p n : Int}

/-- The bytes of a stretch of a file, if it has them. -/
def bytesAt (contents : List Byte) (p n : Int) : Option (List Byte) :=
  if 0 ≤ p ∧ 0 ≤ n ∧ p + n ≤ contents.length then some ((contents.drop p.toNat).take n.toNat)
  else none

/-- The section headers of a file. -/
def sections (coff : HostFile) : List Scnhdr :=
  let numsections := short (coff.contents.drop 2)
  scnhdrs numsections (coff.readPartial 76 (numsections * 40 : ℕ))

/-- The segment has the address, the size and the bytes of the section. -/
structure Represents (coff : HostFile) (contents : List Byte) (g : Segment) (s : Scnhdr) : Prop where
  addr : g.virtualAddr = s.s_paddr
  size : g.size = s.s_size
  bytes : ∃ bs, bytesAt coff.contents s.s_scnptr.toInt s.s_size.toInt = some bs ∧
    bytesAt contents g.inFileAddr.toInt g.size.toInt = some bs

/-- A segment comes behind the header. -/
def Behind (g : Segment) : Prop := g.size ≠ 0 → 40 ≤ g.inFileAddr.toInt

/-- Two segments have no byte in common. -/
def Apart (g g' : Segment) : Prop := g.size ≠ 0 → g'.size ≠ 0 →
  g.inFileAddr.toInt + g.size.toInt ≤ g'.inFileAddr.toInt ∨
    g'.inFileAddr.toInt + g'.size.toInt ≤ g.inFileAddr.toInt

/-- The addresses of a section. -/
def Scnhdr.stretch (s : Scnhdr) : Stretches.Stretch := (s.s_paddr.toNat, s.s_size.toNat)

/-- The sections that are not initialised, as stretches of addresses. -/
def bssStretches (l : List Scnhdr) : List Stretches.Stretch :=
  (l.filter fun s => s.Is .bss).map Scnhdr.stretch

/-- The NOFF file has the program of the COFF file. -/
structure Preserved (coff out : HostFile) : Prop where
  text : ∀ s ∈ sections coff, s.Is .text →
    Represents coff out.contents (NoffHeader.read out []).code s
  data : ∀ s ∈ sections coff, s.Is .data →
    Represents coff out.contents (NoffHeader.read out []).initData s
  behind : Behind (NoffHeader.read out []).code ∧ Behind (NoffHeader.read out []).initData
  apart : Apart (NoffHeader.read out []).code (NoffHeader.read out []).initData
  uninit : ∀ x : ℕ, ((NoffHeader.read out []).uninitData.virtualAddr.toNat ≤ x ∧
    x < (NoffHeader.read out []).uninitData.virtualAddr.toNat +
      (NoffHeader.read out []).uninitData.size.toNat) ↔
    ∃ s ∈ sections coff, s.Is .bss ∧ s.s_paddr.toNat ≤ x ∧ x < s.s_paddr.toNat + s.s_size.toNat

/-- All bytes of the section are in the file. -/
def InFile (coff : HostFile) (s : Scnhdr) : Prop :=
  0 ≤ s.s_scnptr.toInt ∧ 0 ≤ s.s_size.toInt ∧
    s.s_scnptr.toInt + s.s_size.toInt ≤ coff.contents.length

/-- Two sections with the same address, size and bytes. -/
def Alike (coff : HostFile) (s s' : Scnhdr) : Prop :=
  s.s_paddr = s'.s_paddr ∧ s.s_size = s'.s_size ∧
    bytesAt coff.contents s.s_scnptr.toInt s.s_size.toInt =
      bytesAt coff.contents s'.s_scnptr.toInt s'.s_size.toInt

/-- The stretches can be put in an order in which each begins where the one before it ends, the
first of the list coming first. -/
def Contiguous : List Stretches.Stretch → Prop
  | [] => True
  | p :: l => ∃ l', l'.Perm (p :: l) ∧ Stretches.EndToEnd p.1 l'

/-- What a file must be like. -/
structure Convertible (coff : HostFile) : Prop where
  inFile : ∀ s ∈ sections coff, s.Is .text ∨ s.Is .data → InFile coff s
  oneText : ∀ s ∈ sections coff, ∀ s' ∈ sections coff, s.Is .text → s'.Is .text → Alike coff s s'
  bss : Stretches.total (bssStretches (sections coff)) < 2 ^ 32 ∧
    Contiguous (bssStretches (sections coff))

/-! ## The calls -/

theorem Read_eq_some (h : Read coff n c = some (bs, c')) :
    (n = -1 ∧ c' = c) ∨
      (0 ≤ n ∧ bs = coff.readPartial c.inPos n ∧ (bs.length : Int) = n ∧
        c' = c.seek (c.inPos + bs.length)) := by
  obtain ⟨r, c₁, hread, h⟩ := bind_eq_some.mp h
  unfold hostRead at hread
  split at hread
  · cases hread
    simp only at h
    split at h
    · cases h
    · rename_i hn
      cases h
      exact .inl ⟨by simpa using Eq.symm (not_not.mp hn), rfl⟩
  · rename_i hn
    cases hread
    simp only at h
    split at h
    · cases h
    · rename_i hne
      cases h
      exact .inr ⟨not_lt.mp hn, rfl, not_not.mp hne, rfl⟩

theorem Write_eq_some (h : Write bs n c = some ((), c')) :
    (n = -1 ∧ c' = c) ∨
      (0 ≤ n ∧ (bs.length : Int) = n ∧ c'.out.contents = Bytes.overwrite c.out.contents c.outPos bs ∧
        ∃ out, c' = { c with out := out, outPos := c.outPos + bs.length }) := by
  obtain ⟨r, c₁, hwrite, h⟩ := bind_eq_some.mp h
  have hr : r = n ∧ c' = c₁ := by
    split at h
    · cases h
    · rename_i hr
      cases h
      exact ⟨not_not.mp hr, rfl⟩
  obtain ⟨rfl, rfl⟩ := hr
  unfold hostWrite at hwrite
  split at hwrite
  · cases hwrite
    exact .inl ⟨rfl, rfl⟩
  · rename_i hn
    split at hwrite
    · rename_i out hout
      cases hwrite
      refine .inr ⟨not_lt.mp hn, rfl, ?_, out, rfl⟩
      unfold HostFile.writeFile at hout
      split at hout
      · cases hout
        rfl
      · cases hout
    · cases hwrite
      exact absurd (by decide) hn

/-- `copy` leaves the header alone. What it reads is the section, if the seek succeeds, and goes
to the end of the output. -/
theorem copy_eq_some (h : copy coff s c = some ((), c')) :
    c'.noffH = c.noffH ∧ (InFile coff s →
      ∃ bs, bytesAt coff.contents s.s_scnptr.toInt s.s_size.toInt = some bs ∧
        (bs.length : Int) = s.s_size.toInt ∧ c'.outPos = c.outPos + bs.length ∧
        c'.out.contents = Bytes.overwrite c.out.contents c.outPos bs ∧
        c'.inNoffFile = c.inNoffFile + s.s_size) := by
  obtain ⟨_, c₁, hseek, h⟩ := bind_eq_some.mp h
  obtain ⟨bs, c₂, hread, h⟩ := bind_eq_some.mp h
  obtain ⟨_, c₃, hwrite, h⟩ := bind_eq_some.mp h
  cases h
  have hseek : c₁ = if 0 ≤ s.s_scnptr.toInt then c.seek s.s_scnptr.toNat else c := by
    cases hseek
    rfl
  have hkept : c₁.noffH = c.noffH ∧ c₁.out = c.out ∧ c₁.outPos = c.outPos ∧
      c₁.inNoffFile = c.inNoffFile := by
    rw [hseek]
    split <;> exact ⟨rfl, rfl, rfl, rfl⟩
  obtain ⟨h₁, h₂, h₃, h₄⟩ := hkept
  rcases Read_eq_some hread with ⟨hn, rfl⟩ | ⟨hn, hbs, hlen, rfl⟩
  · rcases Write_eq_some hwrite with ⟨-, rfl⟩ | ⟨hn', -⟩
    · refine ⟨h₁, fun hin => ?_⟩
      obtain ⟨-, hsize, -⟩ := hin
      omega
    · omega
  · rcases Write_eq_some hwrite with ⟨hn', -⟩ | ⟨-, -, hcontents, out, rfl⟩
    · omega
    · refine ⟨h₁, fun hin => ⟨bs, ?_, hlen, by simp [h₃], ?_, by simp [h₄]⟩⟩
      · obtain ⟨hp, -, hfit⟩ := hin
        rw [if_pos hp] at hseek
        rw [hbs, hseek, bytesAt, if_pos ⟨hp, hn, hfit⟩, HostFile.readPartial,
          Word.toNat_toInt hp, Conversion.seek_inPos, Int.toNat_natCast]
      · rw [← h₂, ← h₃]
        exact hcontents

/-- What a `.bss` section makes of the third segment. -/
def addBss (g : Segment) (s : Scnhdr) : Segment :=
  if g.size ≠ 0 then { g with size := g.size + s.s_size }
  else { g with virtualAddr := s.s_paddr, size := s.s_size }

/-- The header with a new first segment. -/
def Conversion.withCode (c : Conversion) (s : Scnhdr) : Conversion :=
  { c with noffH := { c.noffH with code := ⟨s.s_paddr, c.inNoffFile, s.s_size⟩ } }

def Conversion.withInitData (c : Conversion) (s : Scnhdr) : Conversion :=
  { c with noffH := { c.noffH with initData := ⟨s.s_paddr, c.inNoffFile, s.s_size⟩ } }

/-- What one pass of the loop can do. -/
theorem oneSection_cases (h : oneSection coff s c = some ((), c')) :
    (s.s_size = 0 ∧ c' = c) ∨
    (s.Is .text ∧ copy coff s (c.withCode s) = some ((), c')) ∨
    (s.Is .data ∧ c.noffH.initData.size = 0 ∧ copy coff s (c.withInitData s) = some ((), c')) ∨
    (s.Is .bss ∧ c' = { c with noffH :=
      { c.noffH with uninitData := addBss c.noffH.uninitData s } }) := by
  unfold oneSection at h
  split at h
  · rename_i h0
    cases h
    exact .inl ⟨h0, rfl⟩
  rename_i h0
  cases hk : s.kind with
  | none =>
    simp only [hk] at h
    cases h
  | some k =>
    simp only [hk] at h
    cases k with
    | text => exact .inr (.inl ⟨⟨h0, hk⟩, h⟩)
    | data =>
      obtain ⟨noffH, c₁, hh, h⟩ := bind_eq_some.mp h
      cases hh
      split at h
      · cases h
      · rename_i hsize
        exact .inr (.inr (.inl ⟨⟨h0, hk⟩, not_not.mp hsize, h⟩))
    | bss =>
      obtain ⟨noffH, c₁, hh, h⟩ := bind_eq_some.mp h
      cases hh
      refine .inr (.inr (.inr ⟨⟨h0, hk⟩, ?_⟩))
      unfold addBss
      split at h
      · rename_i hsize
        split at h
        · cases h
        · cases h
          rw [if_pos hsize]
      · rename_i hsize
        cases h
        rw [if_neg hsize]

/-! ## The third segment -/

theorem loop_uninitData (h : loop coff l c = some ((), c')) :
    c'.noffH.uninitData = (l.filter fun s => s.Is .bss).foldl addBss c.noffH.uninitData := by
  induction l generalizing c with
  | nil =>
    cases h
    rfl
  | cons s l ih =>
    obtain ⟨_, c₁, hone, h⟩ := bind_eq_some.mp h
    rw [ih h]
    rcases oneSection_cases hone with ⟨h0, rfl⟩ | ⟨hk, hcopy⟩ | ⟨hk, -, hcopy⟩ | ⟨hk, rfl⟩
    · rw [List.filter_cons_of_neg (by simp [Scnhdr.Is, h0])]
    · rw [List.filter_cons_of_neg (by simpa using hk.not (by decide)), (copy_eq_some hcopy).1]
      rfl
    · rw [List.filter_cons_of_neg (by simpa using hk.not (by decide)), (copy_eq_some hcopy).1]
      rfl
    · rw [List.filter_cons_of_pos (by simpa using hk)]
      rfl

/-- Sizes add up, as long as they fit in a word. -/
theorem foldl_addBss {g : Segment} (hg : g.size ≠ 0)
    (hfit : g.size.toNat + Stretches.total (l.map Scnhdr.stretch) < 2 ^ 32) :
    (l.foldl addBss g).virtualAddr = g.virtualAddr ∧
      (l.foldl addBss g).size.toNat = g.size.toNat + Stretches.total (l.map Scnhdr.stretch) := by
  induction l generalizing g with
  | nil => exact ⟨rfl, rfl⟩
  | cons s l ih =>
    rw [List.map_cons, Stretches.total_cons] at hfit ⊢
    have hsnd : s.stretch.2 = s.s_size.toNat := rfl
    have hadd : (g.size + s.s_size).toNat = g.size.toNat + s.s_size.toNat := by
      rw [BitVec.toNat_add, Nat.mod_eq_of_lt (by omega)]
    have hne : g.size + s.s_size ≠ 0 := by
      intro he
      have hpos : g.size.toNat ≠ 0 := fun h0 => hg (BitVec.eq_of_toNat_eq h0)
      rw [he] at hadd
      have : (0 : BitVec 32).toNat = 0 := rfl
      omega
    have hstep : addBss g s = { g with size := g.size + s.s_size } := if_pos hg
    rw [List.foldl_cons, hstep]
    obtain ⟨haddr, hsize⟩ := ih (g := { g with size := g.size + s.s_size }) hne
      (by simp only [hadd]; omega)
    refine ⟨haddr, ?_⟩
    rw [hsize]
    simp only [hadd]
    omega

/-- The third segment begins with the first of the sections and has their total size. -/
theorem uninitData_eq (h : loop coff l c = some ((), c')) (h0 : c.noffH.uninitData.size = 0)
    (hfit : Stretches.total (bssStretches l) < 2 ^ 32) :
    c'.noffH.uninitData.size.toNat = Stretches.total (bssStretches l) ∧
      ∀ p ∈ (bssStretches l).head?, c'.noffH.uninitData.virtualAddr.toNat = p.1 := by
  rw [loop_uninitData h]
  unfold bssStretches at hfit ⊢
  cases hbss : l.filter fun s => s.Is .bss with
  | nil => exact ⟨by simp [h0, Stretches.total], by simp⟩
  | cons s rest =>
    have hs : s.s_size ≠ 0 := by
      have hmem : s ∈ l.filter fun s => s.Is .bss := by
        rw [hbss]
        exact List.mem_cons_self
      exact (of_decide_eq_true (List.mem_filter.mp hmem).2).1
    have hstep : addBss c.noffH.uninitData s =
        { c.noffH.uninitData with virtualAddr := s.s_paddr, size := s.s_size } :=
      if_neg (not_not.mpr h0)
    rw [hbss, List.map_cons, Stretches.total_cons] at hfit
    obtain ⟨haddr, hsize⟩ := foldl_addBss (l := rest)
      (g := { c.noffH.uninitData with virtualAddr := s.s_paddr, size := s.s_size }) hs hfit
    rw [List.foldl_cons, hstep]
    refine ⟨by rw [hsize, List.map_cons, Stretches.total_cons]; rfl, ?_⟩
    rintro p hp
    cases hp
    rw [haddr]
    rfl

/-- It covers what they cover exactly if they are contiguous. -/
theorem uninit_iff {g : Segment} (hsize : g.size.toNat = Stretches.total (bssStretches l))
    (haddr : ∀ p ∈ (bssStretches l).head?, g.virtualAddr.toNat = p.1) :
    (∀ x : ℕ, (g.virtualAddr.toNat ≤ x ∧ x < g.virtualAddr.toNat + g.size.toNat) ↔
      ∃ s ∈ l, s.Is .bss ∧ s.s_paddr.toNat ≤ x ∧ x < s.s_paddr.toNat + s.s_size.toNat) ↔
    Contiguous (bssStretches l) := by
  have hcover : ∀ x, x ∈ Stretches.cover (bssStretches l) ↔
      ∃ s ∈ l, s.Is .bss ∧ s.s_paddr.toNat ≤ x ∧ x < s.s_paddr.toNat + s.s_size.toNat := by
    intro x
    rw [Stretches.mem_cover]
    simp only [bssStretches, List.mem_map, List.mem_filter, decide_eq_true_eq]
    constructor
    · rintro ⟨p, ⟨s, ⟨hs, hk⟩, rfl⟩, hx⟩
      exact ⟨s, hs, hk, hx⟩
    · rintro ⟨s, hs, hk, hx⟩
      exact ⟨s.stretch, ⟨s, ⟨hs, hk⟩, rfl⟩, hx⟩
  have hpos : ∀ p ∈ bssStretches l, 0 < p.2 := by
    intro p hp
    obtain ⟨s, hs, rfl⟩ := List.mem_map.mp hp
    have hne : s.s_size ≠ 0 := (of_decide_eq_true (List.mem_filter.mp hs).2).1
    exact Nat.pos_of_ne_zero fun h0 => hne (BitVec.eq_of_toNat_eq h0)
  have hset : (∀ x : ℕ, (g.virtualAddr.toNat ≤ x ∧ x < g.virtualAddr.toNat + g.size.toNat) ↔
      ∃ s ∈ l, s.Is .bss ∧ s.s_paddr.toNat ≤ x ∧ x < s.s_paddr.toNat + s.s_size.toNat) ↔
      Stretches.cover (bssStretches l) = Finset.Ico g.virtualAddr.toNat
        (g.virtualAddr.toNat + Stretches.total (bssStretches l)) := by
    rw [Finset.ext_iff]
    refine forall_congr' fun x => ?_
    rw [← hcover x, Finset.mem_Ico, ← hsize]
    exact iff_comm
  rw [hset]
  cases hl : bssStretches l with
  | nil =>
    simp [Contiguous, Stretches.cover, Stretches.total]
  | cons p ps =>
    rw [hl] at hpos haddr
    rw [Stretches.cover_eq_iff hpos, haddr p rfl]
    rfl

/-! ## The first two segments -/

theorem length_bytesAt {contents : List Byte} (h : bytesAt contents p n = some bs) :
    0 ≤ p ∧ 0 ≤ n ∧ p + n ≤ contents.length ∧ (bs.length : Int) = n := by
  unfold bytesAt at h
  split at h
  · rename_i hin
    cases h
    refine ⟨hin.1, hin.2.1, hin.2.2, ?_⟩
    rw [List.length_take, List.length_drop]
    omega
  · cases h

/-- Bytes that are there stay when others are added. -/
theorem bytesAt_append {contents : List Byte} (h : bytesAt contents p n = some bs)
    (more : List Byte) : bytesAt (contents ++ more) p n = some bs := by
  obtain ⟨hp, hn, hfit, -⟩ := length_bytesAt h
  unfold bytesAt at h ⊢
  rw [if_pos ⟨hp, hn, hfit⟩] at h
  rw [if_pos ⟨hp, hn, by rw [List.length_append]; omega⟩, ← h,
    List.drop_append_of_le_length (by omega), List.take_append_of_le_length]
  rw [List.length_drop]
  omega

theorem bytesAt_end (contents bs : List Byte) :
    bytesAt (contents ++ bs) contents.length bs.length = some bs := by
  unfold bytesAt
  rw [if_pos ⟨by omega, by omega, by rw [List.length_append]; omega⟩, Int.toNat_natCast,
    Int.toNat_natCast, List.drop_left, List.take_length]

/-- Writing the header does not touch what is behind it. -/
theorem bytesAt_overwrite {contents hdr : List Byte} (h : bytesAt contents p n = some bs)
    (hhdr : hdr.length = 40) (hp : 40 ≤ p) :
    bytesAt (Bytes.overwrite contents 0 hdr) p n = some bs := by
  obtain ⟨hp0, hn, hfit, -⟩ := length_bytesAt h
  unfold bytesAt at h
  rw [if_pos ⟨hp0, hn, hfit⟩] at h
  have hlen : (Bytes.overlay contents 0 hdr).length = contents.length :=
    Bytes.length_overlay (by omega)
  rw [Bytes.overwrite_of_le (Nat.zero_le _), bytesAt, if_pos ⟨hp0, hn, by rw [hlen]; exact hfit⟩,
    ← h, Bytes.overlay, List.take_zero, List.nil_append, List.drop_append,
    List.drop_of_length_le (by omega), List.nil_append, List.drop_drop]
  congr 3
  omega

/-- Written at the end, or behind it. -/
theorem overwrite_end {contents : List Byte} {position : ℕ} (h : contents.length ≤ position)
    (hbs : bs ≠ []) : Bytes.overwrite contents position bs =
      contents ++ List.replicate (position - contents.length) 0 ++ bs := by
  have hlen : (contents ++ List.replicate (position - contents.length) 0).length = position := by
    rw [List.length_append, List.length_replicate]
    omega
  rw [Bytes.overwrite, if_neg hbs, Bytes.overlay, List.take_of_length_le (by omega),
    List.drop_of_length_le (by omega), List.append_nil]

theorem Represents.inFile {contents : List Byte} {g : Segment} (h : Represents coff contents g s) :
    InFile coff s := by
  obtain ⟨bs, hin, -⟩ := h.bytes
  obtain ⟨hp, hn, hfit, -⟩ := length_bytesAt hin
  exact ⟨hp, hn, hfit⟩

theorem Represents.append {contents : List Byte} {g : Segment}
    (h : Represents coff contents g s) (more : List Byte) :
    Represents coff (contents ++ more) g s := by
  obtain ⟨bs, hin, hout⟩ := h.bytes
  exact ⟨h.addr, h.size, bs, hin, bytesAt_append hout more⟩

/-- A segment that is there lies between the header and the end. -/
structure Within (contents : List Byte) (g : Segment) : Prop where
  behind : 40 ≤ g.inFileAddr.toInt
  fits : g.inFileAddr.toInt + g.size.toInt ≤ contents.length

/-- While the loop runs. -/
structure LoopInv (coff : HostFile) (seen : List Scnhdr) (c : Conversion) : Prop where
  pos : c.inNoffFile.toNat = c.outPos
  behind : 40 ≤ c.outPos
  small : c.outPos < 2 ^ 31
  length : c.out.contents.length ≤ c.outPos
  text : ∀ s ∈ seen, s.Is .text → Represents coff c.out.contents c.noffH.code s
  data : ∀ s ∈ seen, s.Is .data → Represents coff c.out.contents c.noffH.initData s
  code : c.noffH.code.size ≠ 0 → Within c.out.contents c.noffH.code
  initData : c.noffH.initData.size ≠ 0 → Within c.out.contents c.noffH.initData
  apart : Apart c.noffH.code c.noffH.initData

/-- The segment that is made for a section when it is copied. -/
def segmentFor (c : Conversion) (s : Scnhdr) : Segment := ⟨s.s_paddr, c.inNoffFile, s.s_size⟩

/-- A section that is in the file is appended to the output. -/
structure Appended (coff : HostFile) (s : Scnhdr) (c c' : Conversion) : Prop where
  header : c'.noffH = c.noffH
  pos : c'.inNoffFile.toNat = c'.outPos
  small : c'.outPos < 2 ^ 31
  length : c'.out.contents.length = c'.outPos
  addr : (segmentFor c s).inFileAddr.toInt = c.outPos
  fits : (c.outPos : Int) + (segmentFor c s).size.toInt = c'.outPos
  longer : c.out.contents.length ≤ c.outPos ∧ c.outPos ≤ c'.outPos
  contents : ∃ more, c'.out.contents = c.out.contents ++ more
  represents : Represents coff c'.out.contents (segmentFor c s) s

theorem appended_of_copy (h : copy coff s c = some ((), c')) (hin : InFile coff s)
    (hs : s.s_size ≠ 0) (hpos : c.inNoffFile.toNat = c.outPos) (hsmall : c.outPos < 2 ^ 31)
    (hlen : c.out.contents.length ≤ c.outPos) : Appended coff s c c' := by
  obtain ⟨hheader, hcopy⟩ := copy_eq_some h
  obtain ⟨bs, hbytes, hbs, hout, hcontents, hfile⟩ := hcopy hin
  have hsize : s.s_size.toInt = s.s_size.toNat := (Word.toNat_of_nonneg hin.2.1).1
  have hne : bs ≠ [] := by
    rintro rfl
    refine hs (BitVec.eq_of_toNat_eq ?_)
    have : (0 : BitVec 32).toNat = 0 := rfl
    rw [List.length_nil] at hbs
    omega
  rw [overwrite_end hlen hne] at hcontents
  have hpad : (c.out.contents ++ List.replicate (c.outPos - c.out.contents.length) 0).length =
      c.outPos := by
    rw [List.length_append, List.length_replicate]
    omega
  have hlength : c'.out.contents.length = c'.outPos := by
    rw [hcontents, List.length_append, hpad, hout]
  have hsmall' : c'.outPos < 2 ^ 31 := hlength ▸ c'.out.small
  have haddr : c.inNoffFile.toInt = c.outPos := by
    rw [Word.toInt_of_lt (by omega), hpos]
  constructor
  · exact hheader
  · rw [hfile, BitVec.toNat_add, Nat.mod_eq_of_lt (by omega)]
    omega
  · exact hsmall'
  · exact hlength
  · exact haddr
  · show (c.outPos : Int) + s.s_size.toInt = c'.outPos
    omega
  · exact ⟨hlen, by omega⟩
  · exact ⟨List.replicate (c.outPos - c.out.contents.length) 0 ++ bs, by
      rw [hcontents, List.append_assoc]⟩
  · refine ⟨rfl, rfl, bs, hbytes, ?_⟩
    have hend := bytesAt_end (c.out.contents ++
      List.replicate (c.outPos - c.out.contents.length) 0) bs
    rw [hpad] at hend
    show bytesAt c'.out.contents c.inNoffFile.toInt s.s_size.toInt = some bs
    rw [haddr, ← hbs, hcontents]
    exact hend

theorem Within.append {contents : List Byte} {g : Segment} (h : Within contents g)
    (more : List Byte) : Within (contents ++ more) g :=
  ⟨h.behind, by rw [List.length_append]; have := h.fits; omega⟩

theorem Appended.within (h : Appended coff s c c') (hb : 40 ≤ c.outPos) :
    Within c'.out.contents (segmentFor c s) := by
  refine ⟨?_, ?_⟩
  · rw [h.addr]
    omega
  · rw [h.addr, h.fits, h.length]

variable {seen : List Scnhdr}

/-- A section that is not copied. -/
theorem LoopInv.skip (hi : LoopInv coff seen c) (hs : ¬s.Is .text ∧ ¬s.Is .data) (g : Segment) :
    LoopInv coff (seen ++ [s]) { c with noffH := { c.noffH with uninitData := g } } := by
  refine ⟨hi.pos, hi.behind, hi.small, hi.length, ?_, ?_, hi.code, hi.initData, hi.apart⟩
  · intro s' hs' hk
    rcases List.mem_append.mp hs' with hs' | hs'
    · exact hi.text s' hs' hk
    · rw [List.mem_singleton.mp hs'] at hk
      exact absurd hk hs.1
  · intro s' hs' hk
    rcases List.mem_append.mp hs' with hs' | hs'
    · exact hi.data s' hs' hk
    · rw [List.mem_singleton.mp hs'] at hk
      exact absurd hk hs.2

/-- A `.text` section. An earlier one loses its segment, but has the same bytes. -/
theorem LoopInv.text_step (hi : LoopInv coff seen c) (hk : s.Is .text) (hnot : ¬s.Is .data)
    (ha : Appended coff s (c.withCode s) c')
    (hone : ∀ s' ∈ seen, s.Is .text → s'.Is .text → Alike coff s s') :
    LoopInv coff (seen ++ [s]) c' := by
  obtain ⟨more, hmore⟩ := ha.contents
  have hcode : c'.noffH.code = segmentFor c s := by rw [ha.header]; rfl
  have hdata : c'.noffH.initData = c.noffH.initData := by rw [ha.header]; rfl
  have hbehind := hi.behind
  refine ⟨ha.pos, le_trans hi.behind ha.longer.2, ha.small, ha.length.le, ?_, ?_, ?_, ?_, ?_⟩
  · intro s' hs' hk'
    rw [hcode]
    rcases List.mem_append.mp hs' with hs' | hs'
    · obtain ⟨haddr, hsize, hbytes⟩ := hone s' hs' hk hk'
      obtain ⟨h₁, h₂, bs, h₃, h₄⟩ := ha.represents
      exact ⟨h₁.trans haddr, h₂.trans hsize, bs, hbytes ▸ h₃, h₄⟩
    · rw [List.mem_singleton.mp hs']
      exact ha.represents
  · intro s' hs' hk'
    rw [hdata, hmore]
    rcases List.mem_append.mp hs' with hs' | hs'
    · exact (hi.data s' hs' hk').append more
    · rw [List.mem_singleton.mp hs'] at hk'
      exact absurd hk' hnot
  · intro _
    rw [hcode]
    exact ha.within hi.behind
  · intro hne
    rw [hdata] at hne ⊢
    rw [hmore]
    exact (hi.initData hne).append more
  · intro _ hne
    rw [hdata] at hne
    rw [hcode, hdata]
    refine .inr ?_
    have hfits := (hi.initData hne).fits
    have haddr : (segmentFor c s).inFileAddr.toInt = c.outPos := ha.addr
    have hlen := hi.length
    omega

/-- The `.data` or `.rdata` section. There has been none before. -/
theorem LoopInv.data_step (hi : LoopInv coff seen c) (hnot : ¬s.Is .text)
    (hnone : c.noffH.initData.size = 0) (ha : Appended coff s (c.withInitData s) c') :
    LoopInv coff (seen ++ [s]) c' := by
  obtain ⟨more, hmore⟩ := ha.contents
  have hcode : c'.noffH.code = c.noffH.code := by rw [ha.header]; rfl
  have hdata : c'.noffH.initData = segmentFor c s := by rw [ha.header]; rfl
  refine ⟨ha.pos, le_trans hi.behind ha.longer.2, ha.small, ha.length.le, ?_, ?_, ?_, ?_, ?_⟩
  · intro s' hs' hk'
    rw [hcode, hmore]
    rcases List.mem_append.mp hs' with hs' | hs'
    · exact (hi.text s' hs' hk').append more
    · rw [List.mem_singleton.mp hs'] at hk'
      exact absurd hk' hnot
  · intro s' hs' hk'
    rw [hdata]
    rcases List.mem_append.mp hs' with hs' | hs'
    · have hsize := (hi.data s' hs' hk').size
      exact absurd (hsize.symm.trans hnone) hk'.1
    · rw [List.mem_singleton.mp hs']
      exact ha.represents
  · intro hne
    rw [hcode] at hne ⊢
    rw [hmore]
    exact (hi.code hne).append more
  · intro _
    rw [hdata]
    exact ha.within hi.behind
  · intro hne _
    rw [hcode] at hne
    rw [hcode, hdata]
    refine .inl ?_
    have hfits := (hi.code hne).fits
    have haddr : (segmentFor c s).inFileAddr.toInt = c.outPos := ha.addr
    have hlen := hi.length
    omega

/-- One pass of the loop. -/
theorem loopInv_step (h : oneSection coff s c = some ((), c'))
    (hin : s.Is .text ∨ s.Is .data → InFile coff s)
    (hone : ∀ s' ∈ seen, s.Is .text → s'.Is .text → Alike coff s s')
    (hi : LoopInv coff seen c) : LoopInv coff (seen ++ [s]) c' := by
  rcases oneSection_cases h with ⟨h0, rfl⟩ | ⟨hk, hcopy⟩ | ⟨hk, hnone, hcopy⟩ | ⟨hk, rfl⟩
  · exact hi.skip ⟨fun hs => hs.1 h0, fun hs => hs.1 h0⟩ c'.noffH.uninitData
  · exact hi.text_step hk (hk.not (by decide))
      (appended_of_copy hcopy (hin (.inl hk)) hk.1 hi.pos hi.small hi.length) hone
  · exact hi.data_step (hk.not (by decide)) hnone
      (appended_of_copy hcopy (hin (.inr hk)) hk.1 hi.pos hi.small hi.length)
  · exact hi.skip ⟨hk.not (by decide), hk.not (by decide)⟩ _

theorem loopInv_loop (h : loop coff l c = some ((), c'))
    (hin : ∀ s ∈ l, s.Is .text ∨ s.Is .data → InFile coff s)
    (hone : ∀ s ∈ seen ++ l, ∀ s' ∈ seen ++ l, s.Is .text → s'.Is .text → Alike coff s s')
    (hi : LoopInv coff seen c) : LoopInv coff (seen ++ l) c' := by
  induction l generalizing seen c with
  | nil =>
    cases h
    simpa using hi
  | cons s l ih =>
    obtain ⟨_, c₁, hfirst, h⟩ := bind_eq_some.mp h
    have hs : s ∈ seen ++ s :: l := List.mem_append_right _ List.mem_cons_self
    have hi₁ := loopInv_step hfirst (hin s List.mem_cons_self)
      (fun s' hs' => hone s hs s' (List.mem_append_left _ hs')) hi
    rw [List.append_cons] at hone ⊢
    exact ih h (fun s' hs' => hin s' (List.mem_cons_of_mem s hs')) hone hi₁

/-! ## The whole program -/

@[simp] theorem length_headerBytes (h : NoffHeader) : (headerBytes h).length = 40 := rfl

/-- The header is read as it was written. -/
theorem ofBytes_headerBytes (h : NoffHeader) (bs : List Byte) :
    NoffHeader.ofBytes (headerBytes h ++ bs) = h := by
  have hword : ∀ k < 10, Bytes.toWord ((headerBytes h ++ bs).drop (4 * k)) = _ :=
    fun k hk => Bytes.toWord_drop (by simpa using hk) bs
  simp only [NoffHeader.ofBytes, hword 0 (by decide), hword 1 (by decide), hword 2 (by decide),
    hword 3 (by decide), hword 4 (by decide), hword 5 (by decide), hword 6 (by decide),
    hword 7 (by decide), hword 8 (by decide), hword 9 (by decide)]
  rfl

/-- What the program has done when it exits with status `0`. -/
theorem coff2noff_eq_some (h : coff2noff coff stack = some out) :
    ∃ c c', loop coff (sections coff) c = some ((), c') ∧ c.inNoffFile = 40 ∧ c.outPos = 40 ∧
      c.out.contents = [] ∧ c.noffH = (start stack).noffH ∧
      out.contents = Bytes.overwrite c'.out.contents 0 (headerBytes c'.noffH) := by
  obtain ⟨⟨_, c₉⟩, hmain, hout⟩ := Option.map_eq_some_iff.mp h
  simp only at hout
  subst hout
  obtain ⟨fileh, c₁, hfile, hmain⟩ := bind_eq_some.mp hmain
  rcases Read_eq_some hfile with ⟨hn, -⟩ | ⟨-, hfileh, hlen₁, rfl⟩
  · cases hn
  split at hmain
  · cases hmain
  obtain ⟨systemh, c₂, hsystem, hmain⟩ := bind_eq_some.mp hmain
  rcases Read_eq_some hsystem with ⟨hn, -⟩ | ⟨-, hsystemh, hlen₂, rfl⟩
  · cases hn
  split at hmain
  · cases hmain
  obtain ⟨raw, c₃, hsections, hmain⟩ := bind_eq_some.mp hmain
  rcases Read_eq_some hsections with ⟨hn, -⟩ | ⟨-, hraw, -, rfl⟩
  · omega
  obtain ⟨_, c₄, hseek, hmain⟩ := bind_eq_some.mp hmain
  obtain ⟨_, c₅, hloop, hmain⟩ := bind_eq_some.mp hmain
  obtain ⟨_, c₆, hseek', hmain⟩ := bind_eq_some.mp hmain
  obtain ⟨noffH, c₇, hheader, hwrite⟩ := bind_eq_some.mp hmain
  cases hseek
  cases hseek'
  cases hheader
  have hnum : short (fileh.drop 2) = short (coff.contents.drop 2) := by
    rw [hfileh]
    simp [short, start, HostFile.readPartial, List.getD_eq_getElem?_getD]
  have hsections : scnhdrs (short (fileh.drop 2)) raw = sections coff := by
    have hpos : (start stack).inPos + fileh.length + systemh.length = 76 := by
      simp only [start]
      omega
    simp only [Conversion.seek_inPos, hpos, hnum] at hraw
    rw [hraw, hnum]
    rfl
  rw [hsections] at hloop
  refine ⟨_, c₅, hloop, rfl, rfl, rfl, rfl, ?_⟩
  rcases Write_eq_some hwrite with ⟨hn, -⟩ | ⟨-, -, hcontents, -⟩
  · cases hn
  · exact hcontents

/-- The header that is in the file. -/
theorem read_overwrite {contents : List Byte} {h : NoffHeader}
    (hout : out.contents = Bytes.overwrite contents 0 (headerBytes h)) :
    NoffHeader.read out [] = h := by
  have hne : headerBytes h ≠ [] := by
    intro he
    have := congrArg List.length he
    simp at this
  have hprefix : out.readPartial 0 40 = headerBytes h := by
    rw [HostFile.readPartial, hout, Bytes.overwrite_of_le (Nat.zero_le _)]
    simp only [Bytes.overlay, List.take_zero, List.nil_append]
    exact List.take_left' rfl
  rw [NoffHeader.read, hprefix]
  exact ofBytes_headerBytes h _

theorem Represents.written {contents : List Byte} {g : Segment} {h : NoffHeader}
    (hr : Represents coff contents g s) (hs : s.s_size ≠ 0)
    (hw : g.size ≠ 0 → Within contents g)
    (hout : out.contents = Bytes.overwrite contents 0 (headerBytes h)) :
    Represents coff out.contents g s := by
  obtain ⟨haddr, hsize, bs, hin, hbytes⟩ := hr
  refine ⟨haddr, hsize, bs, hin, ?_⟩
  rw [hout]
  exact bytesAt_overwrite hbytes (length_headerBytes h) (hw (hsize ▸ hs)).behind

/-- When the loop begins. -/
theorem loopInv_start (hfile : c.inNoffFile = 40) (hpos : c.outPos = 40)
    (hempty : c.out.contents = []) (hheader : c.noffH = (start stack).noffH) :
    LoopInv coff [] c := by
  have hcode : c.noffH.code.size = 0 := by rw [hheader]; rfl
  have hdata : c.noffH.initData.size = 0 := by rw [hheader]; rfl
  refine ⟨by rw [hfile, hpos]; rfl, hpos.ge, by rw [hpos]; decide, by simp [hempty], by simp,
    by simp,
    fun hne => absurd hcode hne, fun hne => absurd hdata hne, fun hne => absurd hcode hne⟩

/-- A file with what the converter needs is converted as it should be, if it is accepted. One that
lacks some of it is not, unless the sizes of its `.bss` sections do not fit in a word. -/
theorem preserved_iff (coff : HostFile) (stack : NoffHeader) (out : HostFile)
    (h : coff2noff coff stack = some out) :
    (Convertible coff → Preserved coff out) ∧
    (Stretches.total (bssStretches (sections coff)) < 2 ^ 32 → Preserved coff out →
      Convertible coff) := by
  obtain ⟨c, c', hloop, hfile, hpos, hempty, hheader, hout⟩ := coff2noff_eq_some h
  have hread := read_overwrite hout
  have hzero : c.noffH.uninitData.size = 0 := by
    rw [hheader]
    rfl
  constructor
  · rintro ⟨hin, hone, htotal, hcontiguous⟩
    have hi := loopInv_loop hloop hin hone (loopInv_start hfile hpos hempty hheader)
    obtain ⟨hsize, haddr⟩ := uninitData_eq hloop hzero htotal
    constructor <;> rw [hread]
    · exact fun s hs hk => (hi.text s hs hk).written hk.1 hi.code hout
    · exact fun s hs hk => (hi.data s hs hk).written hk.1 hi.initData hout
    · exact ⟨fun hne => (hi.code hne).behind, fun hne => (hi.initData hne).behind⟩
    · exact hi.apart
    · exact (uninit_iff hsize haddr).mpr hcontiguous
  · rintro htotal ⟨htext, hdata, -, -, huninit⟩
    obtain ⟨hsize, haddr⟩ := uninitData_eq hloop hzero htotal
    refine ⟨?_, ?_, htotal, ?_⟩
    · intro s hs hk
      rcases hk with hk | hk
      · exact (htext s hs hk).inFile
      · exact (hdata s hs hk).inFile
    · intro s hs s' hs' hk hk'
      obtain ⟨haddr, hsize, bs, hin, hbytes⟩ := htext s hs hk
      obtain ⟨haddr', hsize', bs', hin', hbytes'⟩ := htext s' hs' hk'
      refine ⟨haddr.symm.trans haddr', hsize.symm.trans hsize', ?_⟩
      rw [hin, hin', ← hbytes, hbytes']
    · rw [hread] at huninit
      exact (uninit_iff hsize haddr).mp huninit

/-! ## Two files -/

/-- A section header. -/
def scnhdrBytes (name : String) (paddr size scnptr : BitVec 32) : List Byte :=
  ascii name ++ List.replicate (8 - name.length) 0 ++
    [paddr, paddr, size, scnptr, 0, 0, 0, 0].flatMap Bytes.ofWord

/-- A COFF file with two sections. -/
def coffBytes (first second raw : List Byte) : List Byte :=
  [0x62, 0x01, 2, 0] ++ List.replicate 16 0 ++ [7, 1] ++ List.replicate 54 0 ++ first ++ second ++ raw

/-- Four bytes of code, and eight that are not initialised. -/
def textFile : HostFile :=
  ⟨coffBytes (scnhdrBytes ".text" 0 4 156) (scnhdrBytes ".bss" 4 8 0) [1, 2, 3, 4],
    by decide +kernel⟩

/-- A `.bss` and a `.sbss` section with a gap between them. -/
def gapFile : HostFile :=
  ⟨coffBytes (scnhdrBytes ".bss" 0 16 0) (scnhdrBytes ".sbss" 32 16 0) [], by decide +kernel⟩

def noStack : NoffHeader := ⟨0, ⟨0, 0, 0⟩, ⟨0, 0, 0⟩, ⟨0, 0, 0⟩⟩

theorem preserved_textFile :
    ∃ out, coff2noff textFile noStack = some out ∧ Preserved textFile out := by
  obtain ⟨out, hout⟩ := Option.isSome_iff_exists.mp
    (by decide +kernel : (coff2noff textFile noStack).isSome = true)
  have hbss : bssStretches (sections textFile) = [(4, 8)] := by decide +kernel
  refine ⟨out, hout, (preserved_iff textFile noStack out hout).1 ⟨?_, ?_, ?_⟩⟩
  · unfold InFile
    decide +kernel
  · unfold Alike
    decide +kernel
  · rw [hbss]
    exact ⟨by decide, [(4, 8)], .refl _, rfl, trivial⟩

/-- The gap does not matter to the converter, and the third segment ends before the second of the
sections begins. -/
theorem gap_accepted :
    ∃ out, coff2noff gapFile noStack = some out ∧ ¬Preserved gapFile out := by
  obtain ⟨out, hout⟩ := Option.isSome_iff_exists.mp
    (by decide +kernel : (coff2noff gapFile noStack).isSome = true)
  refine ⟨out, hout, fun hp => ?_⟩
  have hheader : (coff2noff gapFile noStack).map (fun f => (NoffHeader.read f []).uninitData) =
      some ⟨0, 0, 32⟩ := by decide +kernel
  rw [hout, Option.map_some, Option.some.injEq] at hheader
  have hsection : ∃ s ∈ sections gapFile, s.Is .bss ∧ s.s_paddr.toNat ≤ 40 ∧
      40 < s.s_paddr.toNat + s.s_size.toNat := by decide +kernel
  have hrange := (hp.uninit 40).mpr hsection
  rw [hheader] at hrange
  exact absurd hrange.2 (by decide)

end Nachos.Coff2noff
