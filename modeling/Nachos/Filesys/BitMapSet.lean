import Nachos.Filesys.TwoFiles
import Nachos.Filesys.FileSystem
import Mathlib.Data.Finset.Max

/-!
# A bit map as a finite set

`bitmap.cc` for maps of any size: the bits are those of a set, whatever the words of the new array
held, and a map that is written to a file of either build is read back as the same set.
-/
namespace Nachos

open Bytes (Byte overlay)
open Filesys (StubFile DiskFile)

/-! ## Sets of numbers below a bound -/

/-- The least number below `n` that is not in the set. -/
def firstFree (n : ℕ) (s : Finset ℕ) : Option ℕ :=
  if h : (Finset.range n \ s).Nonempty then some ((Finset.range n \ s).min' h) else none

variable {n i : ℕ} {s : Finset ℕ}

theorem firstFree_of_least (hi : i < n) (hfree : i ∉ s) (hlow : ∀ j < i, j ∈ s) :
    firstFree n s = some i := by
  have hmem : i ∈ Finset.range n \ s := Finset.mem_sdiff.mpr ⟨Finset.mem_range.mpr hi, hfree⟩
  rw [firstFree, dif_pos ⟨i, hmem⟩, Option.some.injEq]
  refine le_antisymm (Finset.min'_le _ i hmem) (Finset.le_min' _ _ i fun j hj => ?_)
  exact not_lt.mp fun hlt => (Finset.mem_sdiff.mp hj).2 (hlow j hlt)

theorem firstFree_of_full (h : Finset.range n ⊆ s) : firstFree n s = none := by
  rw [firstFree, dif_neg]
  rw [Finset.not_nonempty_iff_eq_empty]
  exact Finset.sdiff_eq_empty_iff_subset.mpr h

namespace BitMap

open Command (stop)

variable {m : BitMap}

/-! ## The calls -/

/-- `BitMap::BitMap`, with what the new array held. -/
def new (words : ℕ → BitVec 32) (nitems : ℕ) : BitMap :=
  (List.range nitems).foldl clear ⟨nitems, words⟩

/-- The assertion of `Mark`, `Clear` and `Test`. -/
def InRange (m : BitMap) (which : Int) : Prop := 0 ≤ which ∧ which < m.numBits

instance (m : BitMap) (which : Int) : Decidable (m.InRange which) :=
  inferInstanceAs (Decidable (_ ∧ _))

/-- A call of a member function. -/
inductive Call
  | mark (which : Int)
  | clear (which : Int)
  | test (which : Int)
  | find
  | numClear
  deriving DecidableEq

/-- What is returned. -/
inductive Answer
  | nothing
  | truth (b : Bool)
  | number (k : Int)
  deriving DecidableEq

namespace Call

def run : Call → Command BitMap Answer
  | mark which => fun m =>
    if m.InRange which then some (.nothing, m.mark which.toNat) else none
  | clear which => fun m =>
    if m.InRange which then some (.nothing, m.clear which.toNat) else none
  | test which => fun m =>
    if m.InRange which then some (.truth (m.test which.toNat), m) else none
  | find => fun m => some (.number m.find.1, m.find.2)
  | numClear => fun m => some (.number m.numClear, m)

/-- The same call on a set of numbers below `n`. -/
def onSet (n : ℕ) : Call → Finset ℕ → Answer × Finset ℕ
  | mark which, s => (.nothing, insert which.toNat s)
  | clear which, s => (.nothing, s.erase which.toNat)
  | test which, s => (.truth (decide (which.toNat ∈ s)), s)
  | find, s =>
    match firstFree n s with
    | some i => (.number i, insert i s)
    | none => (.number (-1), s)
  | numClear, s => (.number (n - s.card : ℕ), s)

/-- The argument is the number of a bit. -/
def InRange (n : ℕ) : Call → Prop
  | mark which | clear which | test which => 0 ≤ which ∧ which < n
  | find | numClear => True

end Call

/-! ## The bits -/

@[simp] theorem numBits_clear : (m.clear i).numBits = m.numBits := rfl

theorem marked_clear (m : BitMap) (i : ℕ) : (m.clear i).marked = m.marked.erase i := by
  ext j
  simp only [mem_marked, numBits_clear, test_clear, Finset.mem_erase, Bool.and_eq_true,
    Bool.not_eq_true', decide_eq_false_iff_not]
  tauto

theorem marked_subset (m : BitMap) : m.marked ⊆ Finset.range m.numBits := Finset.filter_subset _ _

/-- All bits are set if no clear one is left. -/
theorem numClear_eq_zero_iff (m : BitMap) : m.numClear = 0 ↔ m.marked = Finset.range m.numBits := by
  have hcard := card_marked_add_numClear m
  constructor
  · intro h
    refine Finset.eq_of_subset_of_card_le m.marked_subset ?_
    rw [Finset.card_range]
    omega
  · intro h
    rw [h, Finset.card_range] at hcard
    omega

theorem test_eq_marked (hi : i < m.numBits) : m.test i = decide (i ∈ m.marked) := by
  rw [Bool.eq_iff_iff, decide_eq_true_iff, mem_marked]
  exact ⟨fun h => ⟨hi, h⟩, fun h => h.2⟩

/-- `Find` finds the least number that is not in the set. -/
theorem find_firstFree (m : BitMap) :
    (firstFree m.numBits m.marked = none ∧ m.marked = Finset.range m.numBits ∧
      m.find = (-1, m)) ∨
    ∃ i < m.numBits, firstFree m.numBits m.marked = some i ∧ m.find = ((i : Int), m.mark i) := by
  rcases Nat.eq_zero_or_pos m.numClear with hfull | hpos
  · have hmarked := (numClear_eq_zero_iff m).mp hfull
    exact .inl ⟨firstFree_of_full hmarked.ge, hmarked, find_of_full hfull⟩
  · obtain ⟨i, hi, hclear, hlow, hfind⟩ := find_spec hpos
    refine .inr ⟨i, hi, firstFree_of_least hi (by simp [hclear]) fun j hj => ?_, hfind⟩
    exact mem_marked.mpr ⟨hj.trans hi, hlow j hj⟩

/-- `divRoundUp(numBits, BitsInWord)`. -/
theorem numWords_eq (m : BitMap) : m.numWords =
    m.numBits / BitsInWord + if 0 < m.numBits % BitsInWord then 1 else 0 := by
  rw [numWords, BitsInWord]
  by_cases h : 0 < m.numBits % 32
  · rw [if_pos h]
    omega
  · rw [if_neg h]
    omega

theorem word_lt (hi : i < m.numBits) : i / BitsInWord < m.numWords := by
  simp only [numWords, BitsInWord]
  omega

/-- A word behind the map is not that of a bit. -/
theorem word_ne {w : ℕ} (hi : i < m.numBits) (hw : m.numWords ≤ w) : w ≠ i / BitsInWord :=
  ((word_lt hi).trans_le hw).ne'

/-! ## Sequences of calls -/

/-- The set of marked bits is `s`, and what lies behind the words of the map is as in `words`. -/
structure Holds (words : ℕ → BitVec 32) (n : ℕ) (m : BitMap) (s : Finset ℕ) : Prop where
  numBits : m.numBits = n
  marked : m.marked = s
  outside : ∀ w, m.numWords ≤ w → m.map w = words w

variable {words : ℕ → BitVec 32}

theorem Holds.mark (h : Holds words n m s) (hi : i < n) :
    Holds words n (m.mark i) (insert i s) where
  numBits := h.numBits
  marked := by rw [marked_mark (h.numBits.symm ▸ hi), h.marked]
  outside w hw :=
    (Function.update_of_ne (word_ne (h.numBits.symm ▸ hi) hw) _ _).trans (h.outside w hw)

theorem Holds.clear (h : Holds words n m s) (hi : i < n) :
    Holds words n (m.clear i) (s.erase i) where
  numBits := h.numBits
  marked := by rw [marked_clear, h.marked]
  outside w hw :=
    (Function.update_of_ne (word_ne (h.numBits.symm ▸ hi) hw) _ _).trans (h.outside w hw)

/-- A new map is empty, whatever its words held. -/
theorem holds_new (words : ℕ → BitVec 32) (n : ℕ) : Holds words n (new words n) ∅ := by
  have hfold : ∀ (l : List ℕ) (m : BitMap) (s : Finset ℕ), (∀ i ∈ l, i < n) → Holds words n m s →
      Holds words n (l.foldl BitMap.clear m) (s \ l.toFinset) := by
    intro l
    induction l with
    | nil =>
      intro m s _ h
      simpa using h
    | cons i l ih =>
      intro m s hl h
      have h := ih _ _ (fun j hj => hl j (List.mem_cons_of_mem i hj))
        (h.clear (hl i List.mem_cons_self))
      rwa [← Finset.sdiff_singleton_eq_erase, sdiff_sdiff, Finset.sup_eq_union,
        ← Finset.insert_eq, ← List.toFinset_cons] at h
  have h := hfold (List.range n) ⟨n, words⟩ _ (fun i hi => List.mem_range.mp hi)
    ⟨rfl, rfl, fun _ _ => rfl⟩
  have hempty : (⟨n, words⟩ : BitMap).marked \ (List.range n).toFinset = ∅ := by
    refine Finset.sdiff_eq_empty_iff_subset.mpr fun i hi => ?_
    exact List.mem_toFinset.mpr (List.mem_range.mpr (mem_marked.mp hi).1)
  rwa [hempty] at h

/-- A call on the map is a call on the set. -/
theorem Holds.run (h : Holds words n m s) {c : Call} (hc : c.InRange n) :
    ∃ m', c.run m = some ((c.onSet n s).1, m') ∧ Holds words n m' (c.onSet n s).2 := by
  have hrange : ∀ which : Int, 0 ≤ which ∧ which < n → m.InRange which ∧ which.toNat < n := by
    rintro which ⟨h0, hlt⟩
    refine ⟨⟨h0, ?_⟩, by omega⟩
    rw [h.numBits]
    exact hlt
  cases c with
  | mark which =>
    obtain ⟨hin, hlt⟩ := hrange which hc
    exact ⟨_, if_pos hin, h.mark hlt⟩
  | clear which =>
    obtain ⟨hin, hlt⟩ := hrange which hc
    exact ⟨_, if_pos hin, h.clear hlt⟩
  | test which =>
    obtain ⟨hin, hlt⟩ := hrange which hc
    have htest : m.test which.toNat = decide (which.toNat ∈ s) := by
      rw [test_eq_marked (h.numBits.symm ▸ hlt), h.marked]
    exact ⟨m, (if_pos hin).trans (by rw [htest]; rfl), h⟩
  | find =>
    obtain ⟨hfree, -, hfind⟩ | ⟨i, hi, hfree, hfind⟩ := m.find_firstFree
    · rw [h.numBits, h.marked] at hfree
      have hset : Call.find.onSet n s = (.number (-1), s) := by rw [Call.onSet, hfree]
      have hrun : Call.find.run m = some (.number (-1), m) := by
        show some (Answer.number m.find.1, m.find.2) = _
        rw [hfind]
      rw [hset]
      exact ⟨m, hrun, h⟩
    · rw [h.numBits, h.marked] at hfree
      have hset : Call.find.onSet n s = (.number i, insert i s) := by rw [Call.onSet, hfree]
      have hrun : Call.find.run m = some (.number i, m.mark i) := by
        show some (Answer.number m.find.1, m.find.2) = _
        rw [hfind]
      rw [hset]
      exact ⟨m.mark i, hrun, h.mark (h.numBits ▸ hi)⟩
  | numClear =>
    have hcard := card_marked_add_numClear m
    have hclear : m.numClear = n - s.card := by
      rw [h.marked, h.numBits] at hcard
      omega
    exact ⟨m, congrArg (fun k : ℕ => some (Answer.number k, m)) hclear, h⟩

/-! ## On disk -/

section

variable {F : Type}

/-- What is in the map when `FetchFrom` has read these bytes. -/
def filled (m : BitMap) (bs : List Byte) : BitMap :=
  { m with map := fun w =>
      if w < m.numWords then Bytes.toWord ((overlay m.bytes 0 bs).drop (4 * w)) else m.map w }

/-- `FetchFrom`, with the `ReadAt` of the file. -/
def fetchFrom (readAt : Int → Int → Command F Filesys.Answer) (m : BitMap) : Command F BitMap := do
  let r ← readAt (4 * m.numWords : ℕ) 0
  pure (m.filled r.bytes)

/-- `WriteBack`, with the `WriteAt` of the file. -/
def writeBack (writeAt : List Byte → Int → Command F Filesys.Answer) (m : BitMap) :
    Command F Unit := do
  let _ ← writeAt m.bytes 0
  pure ()

/-- Maps of the size of `m`, whatever they hold, read from the file what `m` has written to it. -/
def Restored (writeAt : List Byte → Int → Command F Filesys.Answer)
    (readAt : Int → Int → Command F Filesys.Answer) (f : F) (m : BitMap) : Prop :=
  ∃ f', m.writeBack writeAt f = some ((), f') ∧ ∀ into : BitMap, into.numBits = m.numBits →
    ∃ m' f'', into.fetchFrom readAt f' = some (m', f'') ∧ m'.numBits = m.numBits ∧
      m'.marked = m.marked

/-- A word that lies in the first of two stretches. -/
theorem toWord_append {xs : List Byte} {w : ℕ} (h : 4 * w + 4 ≤ xs.length) (ys : List Byte) :
    Bytes.toWord ((xs ++ ys).drop (4 * w)) = Bytes.toWord (xs.drop (4 * w)) := by
  have hget : ∀ j < 4, ((xs ++ ys).drop (4 * w)).getD j 0 = (xs.drop (4 * w)).getD j 0 := by
    intro j hj
    have hlt : 4 * w + j < xs.length := by omega
    simp only [List.getD_eq_getElem?_getD, List.getElem?_drop, List.getElem?_append_left hlt]
  simp only [Bytes.toWord, hget 0 (by omega), hget 1 (by omega), hget 2 (by omega),
    hget 3 (by omega)]

/-- A map that has been read in full is in the bytes that were read. -/
theorem marked_filled {bs : List Byte} (h : bs.length = 4 * m.numWords) :
    (m.filled bs).marked = (ofBytes m.numBits bs).marked := by
  have htest : ∀ i < m.numBits, (m.filled bs).test i = (ofBytes m.numBits bs).test i := by
    intro i hi
    have hword := word_lt hi
    have hbytes : overlay m.bytes 0 bs = bs ++ m.bytes.drop bs.length := Bytes.overlay_zero _ _
    have hin : 4 * (i / BitsInWord) + 4 ≤ bs.length := by omega
    rw [test, test, filled, ofBytes, hbytes]
    simp only [if_pos hword, toWord_append hin]
  ext i
  rw [mem_marked, mem_marked]
  exact and_congr_right fun hi => by rw [htest i hi]

theorem marked_ofBytes (m : BitMap) : (ofBytes m.numBits m.bytes).marked = m.marked := by
  ext i
  rw [mem_marked, mem_marked]
  refine and_congr_right fun hi => ?_
  have htest : (ofBytes m.numBits (m.bytes ++ [])).test i = m.test i := test_ofBytes hi
  rw [List.append_nil] at htest
  rw [htest]

/-- It is enough that the bytes that were written are read. -/
theorem restored_of_bytes {writeAt : List Byte → Int → Command F Filesys.Answer}
    {readAt : Int → Int → Command F Filesys.Answer} {f g g' : F} {x : Filesys.Answer} {k : Int}
    (hwrite : writeAt m.bytes 0 f = some (x, g))
    (hread : readAt (4 * m.numWords : ℕ) 0 g = some (⟨k, m.bytes⟩, g')) :
    m.Restored writeAt readAt f := by
  refine ⟨g, ?_, fun into h => ⟨into.filled m.bytes, g', ?_, h, ?_⟩⟩
  · rw [writeBack, Command.bind_of_some hwrite]
    rfl
  · have hwords : into.numWords = m.numWords := by rw [numWords, numWords, h]
    rw [fetchFrom, hwords, Command.bind_of_some hread]
    rfl
  · have hlen : m.bytes.length = 4 * into.numWords := by
      rw [m.length_bytes, numWords, numWords, h]
    rw [marked_filled hlen, h, marked_ofBytes]

end

/-- A file of the host. -/
theorem restored_stub (m : BitMap) {f : StubFile}
    (hroom : 4 * m.numWords ≤ f.file.contents.length) :
    m.Restored (fun bs p f => f.writeAt bs p) (fun k p f => f.readAt k p) f := by
  have hlen := m.length_bytes
  have hsmall := f.file.small
  obtain ⟨file, hfile, hcontents⟩ := f.file.writeFile_eq 0 m.bytes (by omega)
  rw [Bytes.overwrite_of_le (Nat.zero_le _), Bytes.overlay_zero] at hcontents
  have hwrite : f.writeAt m.bytes 0 = some (⟨m.bytes.length, []⟩,
      { f with file := file, position := m.bytes.length }) := by
    simp only [StubFile.writeAt]
    rw [if_neg (by omega), Int.toNat_zero, hfile]
    simp
  have hpart : file.readPartial 0 (4 * m.numWords : ℕ) = m.bytes := by
    rw [HostFile.readPartial, hcontents, Int.toNat_zero, List.drop_zero, Int.toNat_natCast, ← hlen,
      List.take_left]
  have hread : StubFile.readAt { f with file := file, position := m.bytes.length }
      (4 * m.numWords : ℕ) 0 = some (⟨m.bytes.length, m.bytes⟩,
        { f with file := file, position := m.bytes.length }) := by
    simp only [StubFile.readAt]
    rw [if_neg (by omega), hpart, if_neg (by omega)]
    simp
  exact restored_of_bytes hwrite hread

/-- A file on disk. -/
theorem restored_disk (m : BitMap) {f : DiskFile} (hp : f.hdr.Placed)
    (hroom : 4 * m.numWords ≤ f.hdr.numBytes.toNat) :
    m.Restored (fun bs p f => f.writeAt bs p) (fun k p f => f.readAt k p) f := by
  have hlen := m.length_bytes
  obtain ⟨d', -, hwrite, hbytes⟩ := DiskFile.writeAt_spec (p := 0) hp m.bytes (by omega)
  rw [Bytes.overlay_zero] at hbytes
  have hread := DiskFile.readAt_start
    (t := { f with disk := d', old := fun i => f.old (i + 1) }) hp hroom
  rw [hbytes, ← hlen, List.take_left] at hread
  exact restored_of_bytes hwrite (hlen ▸ hread)

/-- The map of free sectors is fetched so. -/
theorem fetchMap_marked {f : DiskFile} (hp : f.hdr.Placed) {into : BitMap}
    (hbits : into.numBits = Filesys.NumSectors) (hroom : 4 * into.numWords ≤ f.hdr.numBytes.toNat) :
    ∃ m m', Filesys.fetchMap f.hdr f.disk = some (m, f.disk) ∧
      into.fetchFrom (fun k p f => f.readAt k p) f = some (m', f) ∧ m'.marked = m.marked := by
  have hwords : (ofSize Filesys.NumSectors).numWords = into.numWords := by
    rw [numWords, numWords, hbits]
    rfl
  have hread := hp.readAt (d := f.disk) (4 * into.numWords : ℕ) 0
  rw [List.drop_zero, Int.toNat_natCast] at hread
  have hlen : ((f.hdr.bytes f.disk).take (4 * into.numWords)).length = 4 * into.numWords := by
    rw [List.length_take, hp.length_bytes, Nat.min_eq_left hroom]
  refine ⟨ofBytes Filesys.NumSectors ((f.hdr.bytes f.disk).take (4 * into.numWords)),
    into.filled ((f.hdr.bytes f.disk).take (4 * into.numWords)), ?_, ?_, ?_⟩
  · rw [Filesys.fetchMap, hwords, Command.bind_of_some hread]
    rfl
  · rw [fetchFrom, Command.bind_of_some (DiskFile.readAt_start hp hroom)]
    rfl
  · rw [marked_filled hlen, hbits]

/-- The map of free sectors is written so. -/
theorem writeMap_eq (freeMap : BitMap) {f : DiskFile} (hp : f.hdr.Placed)
    (hroom : 4 * freeMap.numWords ≤ f.hdr.numBytes.toNat) :
    (freeMap.writeBack (fun bs p f => f.writeAt bs p) f).map (fun r => r.2.disk) =
      (Filesys.writeMap freeMap f.hdr (f.old 0) f.disk).map Prod.snd := by
  have hlen := freeMap.length_bytes
  obtain ⟨d', hdisk, hwrite, -⟩ := DiskFile.writeAt_spec (p := 0) hp freeMap.bytes (by omega)
  rw [writeBack, Command.bind_of_some hwrite, Filesys.writeMap, ← hlen, hdisk]
  rfl

/-! ## The correspondence -/

/-- The map is a set of numbers below `n`. -/
structure AsSet (words : ℕ → BitVec 32) (n : ℕ) (m : BitMap) (s : Finset ℕ) : Prop where
  numBits : m.numBits = n
  marked : m.marked = s
  subset : s ⊆ Finset.range n
  test : ∀ i < n, m.test i = decide (i ∈ s)
  /-- No other bit is changed. -/
  mark : ∀ i j, j ≠ i → (m.mark i).test j = m.test j
  clear : ∀ i j, j ≠ i → (m.clear i).test j = m.test j
  find_free : ∀ i < n, i ∉ s → (∀ j < i, j ∈ s) → m.find = ((i : Int), m.mark i)
  find_full : s = Finset.range n → m.find = (-1, m)
  find_eq_neg_one : m.find.1 = -1 ↔ s = Finset.range n
  numClear : m.numClear = n - s.card
  /-- Nothing is written behind the words of the map. -/
  outside : ∀ w, m.numWords ≤ w → m.map w = words w
  stub : ∀ f : StubFile, 4 * m.numWords ≤ f.file.contents.length →
    m.Restored (fun bs p f => f.writeAt bs p) (fun k p f => f.readAt k p) f
  disk : ∀ f : DiskFile, f.hdr.Placed → 4 * m.numWords ≤ f.hdr.numBytes.toNat →
    m.Restored (fun bs p f => f.writeAt bs p) (fun k p f => f.readAt k p) f

theorem Holds.asSet (h : Holds words n m s) : m.AsSet words n s where
  numBits := h.numBits
  marked := h.marked
  subset := h.marked ▸ h.numBits ▸ m.marked_subset
  test i hi := by rw [test_eq_marked (h.numBits.symm ▸ hi), h.marked]
  mark i j hne := by rw [test_mark, decide_eq_false hne, Bool.false_or]
  clear i j hne := by rw [test_clear, decide_eq_false hne, Bool.not_false, Bool.and_true]
  find_free i hi hfree hlow := by
    have hfirst := firstFree_of_least hi hfree hlow
    obtain ⟨hnone, -, -⟩ | ⟨k, -, hk, hfind⟩ := m.find_firstFree
    · rw [h.numBits, h.marked, hfirst] at hnone
      cases hnone
    · rw [h.numBits, h.marked, hfirst, Option.some.injEq] at hk
      rw [hfind, hk]
  find_full hfull := by
    refine find_of_full ((numClear_eq_zero_iff m).mpr ?_)
    rw [h.marked, h.numBits, hfull]
  find_eq_neg_one := by
    rw [find_eq_neg_one_iff, numClear_eq_zero_iff, h.marked, h.numBits]
  numClear := by
    have hcard := card_marked_add_numClear m
    rw [h.marked, h.numBits] at hcard
    omega
  outside := h.outside
  stub _ hroom := m.restored_stub hroom
  disk _ hp hroom := m.restored_disk hp hroom

/-- After any calls with numbers of bits the map is the set that the same calls make of the empty
set, and they have been answered alike. -/
theorem refines_finset (words : ℕ → BitVec 32) {n : ℕ} {calls : List Call}
    (hrange : ∀ c ∈ calls, c.InRange n) :
    ∃ m, calls.mapM Call.run (new words n) =
        some ((Command.replies (Call.onSet n) calls ∅).1, m) ∧
      m.AsSet words n (Command.replies (Call.onSet n) calls ∅).2 := by
  have hstep : ∀ c ∈ calls, ∀ m s, Holds words n m s → ∃ m',
      c.run m = some ((c.onSet n s).1, m') ∧ Holds words n m' (c.onSet n s).2 :=
    fun c hc m s h => h.run (hrange c hc)
  obtain ⟨m, hrun, hm⟩ := Command.mapM_refine hstep (holds_new words n)
  exact ⟨m, hrun, hm.asSet⟩

/-- Forty bits in two words that held ones. -/
theorem refines_finset_forty :
    let calls : List Call := [.mark 31, .mark 0, .find, .clear 31, .mark 39, .test 31, .numClear]
    (Command.replies (Call.onSet 40) calls ∅).1 =
      [.nothing, .nothing, .number 1, .nothing, .nothing, .truth false, .number 37] ∧
    ∃ m, calls.mapM Call.run (new (fun _ => -1) 40) =
        some ((Command.replies (Call.onSet 40) calls ∅).1, m) ∧
      m.AsSet (fun _ => -1) 40 (Command.replies (Call.onSet 40) calls ∅).2 := by
  refine ⟨by decide +kernel, refines_finset _ ?_⟩
  intro c hc
  simp only [List.mem_cons, List.not_mem_nil, or_false] at hc
  rcases hc with rfl | rfl | rfl | rfl | rfl | rfl | rfl <;> simp [Call.InRange]

end BitMap

end Nachos
