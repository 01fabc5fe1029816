import Nachos.Lib.Bytes
import Mathlib.Data.Finset.Card
import Mathlib.Data.Finset.Range
import Mathlib.Data.Finset.Filter
import Mathlib.Data.List.Basic
import Mathlib.Tactic.Common

/-!
# Bit maps

`class BitMap` of `bitmap.cc`: bits packed into 32-bit words. Clients reason about the
set of marked bits.
-/
namespace Nachos

def BitsInWord : ℕ := 32

structure BitMap where
  numBits : ℕ
  map : ℕ → BitVec 32

namespace BitMap

variable {m : BitMap} {i j : ℕ}

/-- `new BitMap(nitems)`: all bits are clear. The words are written here as the loop of
`Clear` calls leaves their bits, whatever the new array held (`test_clearAll`). -/
def ofSize (nitems : ℕ) : BitMap := ⟨nitems, fun _ => 0⟩

def mark (m : BitMap) (which : ℕ) : BitMap :=
  let w := which / BitsInWord
  { m with map := Function.update m.map w (m.map w ||| 1#32 <<< (which % BitsInWord)) }

def clear (m : BitMap) (which : ℕ) : BitMap :=
  let w := which / BitsInWord
  { m with map := Function.update m.map w (m.map w &&& ~~~(1#32 <<< (which % BitsInWord))) }

def test (m : BitMap) (which : ℕ) : Bool :=
  m.map (which / BitsInWord) &&& 1#32 <<< (which % BitsInWord) != 0

/-- `BitMap::Find`: mark the first clear bit, or return `-1`. -/
def find (m : BitMap) : Int × BitMap :=
  match (List.range m.numBits).find? fun i => !m.test i with
  | some i => (i, m.mark i)
  | none => (-1, m)

def numClear (m : BitMap) : ℕ := (List.range m.numBits).countP fun i => !m.test i

@[simp] theorem numBits_mark : (m.mark i).numBits = m.numBits := rfl

/-- A bit of a word, seen through the mask the code uses. -/
theorem and_mask_ne_zero (w : BitVec 32) (h : i < 32) :
    (w &&& 1#32 <<< i != 0) = w.getLsbD i := by
  have hne : BitVec.twoPow 32 i ≠ 0#32 := by
    intro he
    have := congrArg BitVec.toNat he
    rw [BitVec.toNat_twoPow_of_lt h] at this
    simp at this
  rw [← BitVec.twoPow_eq, BitVec.and_twoPow]
  cases w.getLsbD i <;> simp [hne]

theorem test_eq : m.test i = (m.map (i / BitsInWord)).getLsbD (i % BitsInWord) :=
  and_mask_ne_zero _ (Nat.mod_lt _ (by decide))

@[simp] theorem test_ofSize (n : ℕ) : (ofSize n).test i = false := by
  simp [test_eq, ofSize]

/-- Two bits are the same one when they agree on the word and the place in it. -/
theorem eq_of_word_eq (hw : j / BitsInWord = i / BitsInWord)
    (hb : j % BitsInWord = i % BitsInWord) : j = i := by
  rw [← Nat.div_add_mod j BitsInWord, hw, hb, Nat.div_add_mod]

/-- A change of one word, seen at its bits. -/
theorem test_update {w : BitVec 32} (g : Bool → Bool → Bool) (hg : ∀ b, g false b = b)
    (hw : ∀ k < BitsInWord, w.getLsbD k =
      g (decide (k = i % BitsInWord)) ((m.map (i / BitsInWord)).getLsbD k)) :
    test { m with map := Function.update m.map (i / BitsInWord) w } j =
      g (decide (j = i)) (m.test j) := by
  rw [test_eq, test_eq]
  show (Function.update m.map (i / BitsInWord) w (j / BitsInWord)).getLsbD (j % BitsInWord) = _
  by_cases hword : j / BitsInWord = i / BitsInWord
  · have hsame : decide (j % BitsInWord = i % BitsInWord) = decide (j = i) :=
      decide_eq_decide.mpr ⟨eq_of_word_eq hword, fun h => by rw [h]⟩
    rw [hword, Function.update_self, hw _ (Nat.mod_lt _ (by decide)), hsame]
  · have hne : j ≠ i := fun h => hword (by rw [h])
    rw [Function.update_of_ne hword, decide_eq_false hne, hg]

theorem getLsbD_mask (i k : ℕ) :
    (1#32 <<< (i % BitsInWord)).getLsbD k = decide (k = i % BitsInWord) := by
  have hi : i % BitsInWord < 32 := Nat.mod_lt _ (by decide)
  rw [← BitVec.twoPow_eq, BitVec.getLsbD_twoPow, decide_eq_true hi, Bool.true_and]
  exact decide_eq_decide.mpr eq_comm

theorem test_mark : (m.mark i).test j = (decide (j = i) || m.test j) := by
  apply test_update or fun _ => rfl
  intro k hk
  rw [BitVec.getLsbD_or, getLsbD_mask, Bool.or_comm]

theorem test_clear : (m.clear i).test j = (m.test j && !decide (j = i)) := by
  apply test_update (fun b c => c && !b) Bool.and_true
  intro k hk
  rw [BitVec.getLsbD_and, BitVec.getLsbD_not, getLsbD_mask, decide_eq_true (show k < 32 from hk),
    Bool.true_and]

theorem test_foldl_clear (l : List ℕ) : (l.foldl clear m).test j = (m.test j && !decide (j ∈ l)) := by
  induction l generalizing m with
  | nil => simp
  | cons i l ih =>
    rw [List.foldl_cons, ih, test_clear]
    by_cases hj : j = i <;> simp [hj]

/-- The constructor's loop, from any contents of the new array. -/
theorem test_clearAll (words : ℕ → BitVec 32) {n : ℕ} (h : j < n) :
    ((List.range n).foldl clear ⟨n, words⟩).test j = (ofSize n).test j := by
  rw [test_foldl_clear, test_ofSize]
  simp [h]

/-- The set of marked bits. -/
def marked (m : BitMap) : Finset ℕ := (Finset.range m.numBits).filter fun i => m.test i = true

@[simp] theorem mem_marked : i ∈ m.marked ↔ i < m.numBits ∧ m.test i = true := by
  simp [marked]

@[simp] theorem marked_ofSize (n : ℕ) : (ofSize n).marked = ∅ := by
  ext i
  simp

theorem marked_mark (h : i < m.numBits) : (m.mark i).marked = insert i m.marked := by
  ext j
  simp only [mem_marked, numBits_mark, test_mark, Finset.mem_insert, Bool.or_eq_true,
    decide_eq_true_eq]
  constructor
  · rintro ⟨hj, rfl | ht⟩
    · exact .inl rfl
    · exact .inr ⟨hj, ht⟩
  · rintro (rfl | ⟨hj, ht⟩)
    · exact ⟨h, .inl rfl⟩
    · exact ⟨hj, .inr ht⟩

/-- Every bit is marked or clear. -/
theorem card_marked_add_numClear (m : BitMap) : m.marked.card + m.numClear = m.numBits := by
  have h := List.length_eq_countP_add_countP (p := fun i => m.test i) (l := List.range m.numBits)
  have hc : m.marked.card = (List.range m.numBits).countP fun i => m.test i := by
    rw [marked, List.countP_eq_length_filter, ← List.toFinset_card_of_nodup]
    · congr 1
      ext i
      simp
    · exact List.nodup_range.filter _
  have hn : m.numClear = (List.range m.numBits).countP fun i => decide ¬m.test i = true := by
    simp [numClear]
  rw [List.length_range] at h
  omega

@[simp] theorem numClear_ofSize (n : ℕ) : (ofSize n).numClear = n := by
  have h := card_marked_add_numClear (ofSize n)
  rw [marked_ofSize, Finset.card_empty, Nat.zero_add] at h
  exact h

/-- What `Find` returns is the first clear bit, which it marks. -/
theorem find_of_ne (h : m.find.1 ≠ -1) :
    ∃ i < m.numBits, m.test i = false ∧ (∀ j < i, m.test j = true) ∧
      m.find = ((i : Int), m.mark i) := by
  cases hf : (List.range m.numBits).find? fun i => !m.test i with
  | none => simp [find, hf] at h
  | some k =>
    obtain ⟨hk, hm, hleast⟩ := List.find?_range_eq_some.mp hf
    refine ⟨k, by simpa using hm, by simpa using hk, ?_, by simp [find, hf]⟩
    intro j hj
    simpa using hleast j hj

/-- While a bit is clear, `Find` succeeds. -/
theorem find_spec (h : 0 < m.numClear) :
    ∃ i < m.numBits, m.test i = false ∧ (∀ j < i, m.test j = true) ∧
      m.find = ((i : Int), m.mark i) := by
  obtain ⟨i, hi, ht⟩ := List.countP_pos_iff.mp h
  apply find_of_ne
  cases hf : (List.range m.numBits).find? fun i => !m.test i with
  | none => exact absurd ht (List.find?_eq_none.mp hf i hi)
  | some k =>
    simp only [find, hf]
    omega

theorem find_eq_neg_one_iff (m : BitMap) : m.find.1 = -1 ↔ m.numClear = 0 := by
  constructor
  · intro hfind
    by_contra hpos
    obtain ⟨i, -, -, -, heq⟩ := find_spec (Nat.pos_of_ne_zero hpos)
    rw [heq] at hfind
    cases hfind
  · intro hzero
    by_contra hfind
    obtain ⟨i, hi, ht, -, -⟩ := find_of_ne hfind
    have hpos : 0 < m.numClear := List.countP_pos_iff.mpr ⟨i, List.mem_range.mpr hi, by simp [ht]⟩
    omega

/-- A full map stays as it is. -/
theorem find_of_full (h : m.numClear = 0) : m.find = (-1, m) := by
  unfold find
  cases hf : (List.range m.numBits).find? fun i => !m.test i with
  | none => rfl
  | some i =>
    have hclear := List.find?_some hf
    have hpos : 0 < m.numClear :=
      List.countP_pos_iff.mpr ⟨i, List.mem_of_find?_eq_some hf, hclear⟩
    omega

theorem numClear_mark (h : i < m.numBits) (ht : m.test i = false) :
    (m.mark i).numClear + 1 = m.numClear := by
  have h1 := card_marked_add_numClear m
  have h2 := card_marked_add_numClear (m.mark i)
  rw [marked_mark h, Finset.card_insert_of_notMem (by simp [ht]), numBits_mark] at h2
  omega

/-- The answers of `n` calls of `Find`. -/
def finds : ℕ → BitMap → List Int
  | 0, _ => []
  | n + 1, m => m.find.1 :: finds n m.find.2

@[simp] theorem length_finds (n : ℕ) (m : BitMap) : (finds n m).length = n := by
  induction n generalizing m with
  | zero => rfl
  | succ n ih => simp [finds, ih]

/-- `f` lists the first `n` clear bits in order. -/
def Lists (m : BitMap) (n : ℕ) (f : ℕ → ℕ) : Prop :=
  ∀ k < n, f k < m.numBits ∧ m.test (f k) = false ∧ (∀ l < k, f l < f k) ∧
    ∀ j < f k, m.test j = true ∨ ∃ l < k, f l = j

theorem numClear_pos (h : i < m.numBits) (ht : m.test i = false) : 0 < m.numClear :=
  List.countP_pos_iff.mpr ⟨i, List.mem_range.mpr h, by simp [ht]⟩

/-- Calls of `Find` return them. -/
theorem finds_eq {n : ℕ} {f : ℕ → ℕ} (h : m.Lists n f) :
    finds n m = (List.range n).map fun k => (f k : Int) := by
  induction n generalizing m f with
  | zero => rfl
  | succ n ih =>
    obtain ⟨h0, ht, -, hleast⟩ := h 0 (Nat.zero_lt_succ n)
    obtain ⟨i, hi, hti, hmin, hfind⟩ := find_spec (numClear_pos h0 ht)
    have hif : i = f 0 := by
      rcases lt_trichotomy i (f 0) with hlt | heq | hgt
      · simpa [hti] using hleast i hlt
      · exact heq
      · simp [hmin _ hgt] at ht
    subst hif
    have hrest : (m.mark (f 0)).Lists n fun k => f (k + 1) := by
      intro k hk
      obtain ⟨hb, htk, hlt, hlow⟩ := h (k + 1) (by omega)
      have hne := hlt 0 (by omega)
      refine ⟨hb, by simp [test_mark, htk]; omega, fun l hl => hlt (l + 1) (by omega), ?_⟩
      intro j hj
      rcases hlow j hj with htj | ⟨l, hl, rfl⟩
      · exact .inl (by simp [test_mark, htj])
      · cases l with
        | zero => exact .inl (by simp [test_mark])
        | succ l => exact .inr ⟨l, by omega, rfl⟩
    rw [finds, hfind, ih hrest, List.range_succ_eq_map]
    simp [Function.comp_def]

/-- The map after `n` calls of `Find`. -/
def afterFinds : ℕ → BitMap → BitMap
  | 0, m => m
  | n + 1, m => afterFinds n m.find.2

/-- While there are enough clear bits, `n` calls of `Find` return as many different ones and
mark them. -/
theorem finds_spec {n : ℕ} (h : n ≤ m.numClear) : ∃ l : List ℕ,
    finds n m = l.map (fun i : ℕ => (i : Int)) ∧ l.length = n ∧ l.Nodup ∧
    (∀ i ∈ l, i < m.numBits ∧ m.test i = false) ∧ (afterFinds n m).numBits = m.numBits ∧
    ∀ j, (afterFinds n m).test j = (decide (j ∈ l) || m.test j) := by
  induction n generalizing m with
  | zero => exact ⟨[], rfl, rfl, List.nodup_nil, by simp, rfl, by simp [afterFinds]⟩
  | succ n ih =>
    obtain ⟨i, hi, hti, -, hfind⟩ := find_spec (m := m) (by omega)
    have hclear := numClear_mark hi hti
    obtain ⟨l, hfinds, hlen, hnodup, hmem, hbits, htest⟩ := ih (m := m.mark i) (by omega)
    refine ⟨i :: l, ?_, by simp [hlen], ?_, ?_, ?_, ?_⟩
    · rw [finds, hfind, List.map_cons, ← hfinds]
    · refine List.nodup_cons.mpr ⟨fun hil => ?_, hnodup⟩
      simpa [test_mark] using (hmem i hil).2
    · intro j hj
      rcases List.mem_cons.mp hj with rfl | hj
      · exact ⟨hi, hti⟩
      · have := hmem j hj
        simp only [numBits_mark, test_mark, Bool.or_eq_false_iff] at this
        exact ⟨this.1, this.2.2⟩
    · rw [afterFinds, hfind]
      exact hbits
    · intro j
      rw [afterFinds, hfind, htest j, test_mark]
      by_cases hj : j = i <;> simp [hj]

/-! ## On disk -/

def numWords (m : BitMap) : ℕ := (m.numBits + 31) / BitsInWord

/-- What `WriteBack` writes. -/
def bytes (m : BitMap) : List Bytes.Byte := ((List.range m.numWords).map m.map).flatMap Bytes.ofWord

/-- What `FetchFrom` reads into a map of this size. -/
def ofBytes (nitems : ℕ) (bs : List Bytes.Byte) : BitMap :=
  ⟨nitems, fun w => Bytes.toWord (bs.drop (4 * w))⟩

theorem length_bytes (m : BitMap) : m.bytes.length = 4 * m.numWords := by
  rw [bytes, Bytes.length_words, List.length_map, List.length_range]

/-- Reading back what was written gives the same bits. -/
theorem test_ofBytes {bs : List Bytes.Byte} (h : i < m.numBits) :
    (ofBytes m.numBits (m.bytes ++ bs)).test i = m.test i := by
  have hw : i / BitsInWord < ((List.range m.numWords).map m.map).length := by
    simp only [List.length_map, List.length_range, numWords, BitsInWord]
    omega
  have hword : (ofBytes m.numBits (m.bytes ++ bs)).map (i / BitsInWord) = m.map (i / BitsInWord) := by
    simp only [ofBytes, bytes]
    rw [Bytes.toWord_drop hw, List.getD_eq_getElem?_getD, List.getElem?_eq_getElem hw]
    simp
  rw [test, test, hword]

end BitMap

end Nachos
