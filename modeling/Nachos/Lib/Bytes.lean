import Mathlib.Data.Int.Order.Basic
import Mathlib.Data.List.Basic
import Mathlib.Data.List.GetD
import Mathlib.Data.Nat.Basic
import Mathlib.Order.Basic
import Mathlib.Tactic.Common

/-!
# Bytes

A memory of bytes that is written a stretch at a time, buffers of bytes, and 32-bit words
as bytes, the lowest first.
-/
namespace Bytes

abbrev Byte := BitVec 8

/-- A memory, by the distance from some first byte. -/
abbrev Memory := Int → Byte

variable {m : Memory} {start x : Int} {bs : List Byte}

/-- `bs` written from `start` on. -/
def store (m : Memory) (start : Int) (bs : List Byte) : Memory := fun x =>
  if start ≤ x ∧ x < start + bs.length then bs.getD (x - start).toNat 0 else m x

theorem store_of_mem (h0 : start ≤ x) (h1 : x < start + bs.length) :
    store m start bs x = bs.getD (x - start).toNat 0 := if_pos ⟨h0, h1⟩

theorem store_of_not_mem (h : x < start ∨ start + bs.length ≤ x) : store m start bs x = m x := by
  refine if_neg fun hx => ?_
  omega

theorem store_replicate_of_mem {n : ℕ} {b : Byte} (h0 : start ≤ x) (h1 : x < start + n) :
    store m start (List.replicate n b) x = b := by
  rw [store_of_mem h0 (by simpa using h1), List.getD_eq_getElem?_getD,
    List.getElem?_replicate_of_lt (by omega), Option.getD_some]

/-- A list of writes that leave `b` at `x` if they cover it, and what was there if not. -/
theorem foldl_writes {α : Type*} {l : List α} {b : Byte} (write : Memory → α → Memory)
    (covers : α → Prop) (hin : ∀ p ∈ l, ∀ m, covers p → write m p x = b)
    (hout : ∀ p ∈ l, ∀ m, ¬covers p → write m p x = m x) (m : Memory) :
    ((∃ p ∈ l, covers p) → l.foldl write m x = b) ∧
    ((∀ p ∈ l, ¬covers p) → l.foldl write m x = m x) := by
  induction l generalizing m with
  | nil => simp
  | cons p l ih =>
    obtain ⟨ih₁, ih₂⟩ := ih (fun q hq => hin q (List.mem_cons_of_mem p hq))
      (fun q hq => hout q (List.mem_cons_of_mem p hq)) (write m p)
    rw [List.foldl_cons]
    constructor
    · intro hc
      by_cases hl : ∃ q ∈ l, covers q
      · exact ih₁ hl
      · have hl : ∀ q ∈ l, ¬covers q := fun q hq hc => hl ⟨q, hq, hc⟩
        rw [ih₂ hl]
        obtain ⟨q, hq, hc⟩ := hc
        rcases List.mem_cons.mp hq with rfl | hq
        · exact hin q List.mem_cons_self m hc
        · exact absurd hc (hl q hq)
    · intro hc
      rw [ih₂ fun q hq => hc q (List.mem_cons_of_mem p hq)]
      exact hout p List.mem_cons_self m (hc p List.mem_cons_self)

/-! ## Buffers -/

/-- `bs` copied over part of a buffer. -/
def overlay (buf : List Byte) (start : ℕ) (bs : List Byte) : List Byte :=
  buf.take start ++ bs ++ buf.drop (start + bs.length)

theorem ext_getD {xs ys : List Byte} (hl : xs.length = ys.length)
    (h : ∀ i < xs.length, xs.getD i 0 = ys.getD i 0) : xs = ys := by
  refine List.ext_getElem hl fun i hi hi' => ?_
  have := h i hi
  rwa [List.getD_eq_getElem _ _ hi, List.getD_eq_getElem _ _ hi'] at this

theorem getD_take_drop {l : List Byte} {start n j : ℕ} (hj : j < n) :
    ((l.drop start).take n).getD j 0 = l.getD (start + j) 0 := by
  simp only [List.getD_eq_getElem?_getD, List.getElem?_take_of_lt hj, List.getElem?_drop]

@[simp] theorem overlay_nil (buf : List Byte) (start : ℕ) : overlay buf start [] = buf := by
  simp [overlay]

theorem length_overlay {buf bs : List Byte} {start : ℕ} (h : start + bs.length ≤ buf.length) :
    (overlay buf start bs).length = buf.length := by
  simp only [overlay, List.length_append, List.length_take, List.length_drop]
  omega

theorem overlay_zero (buf bs : List Byte) : overlay buf 0 bs = bs ++ buf.drop bs.length := by
  simp [overlay]

/-- Two stretches, the second right after the first. -/
theorem overlay_overlay (buf xs ys : List Byte) :
    overlay (overlay buf 0 xs) xs.length ys = xs ++ (ys ++ buf.drop (xs.length + ys.length)) := by
  rw [overlay_zero, overlay, List.take_left, List.drop_length_add_append, List.drop_drop,
    List.append_assoc]

theorem getD_overlay {buf bs : List Byte} {start x : ℕ} (h : start ≤ buf.length) :
    (overlay buf start bs).getD x 0 =
      if start ≤ x ∧ x < start + bs.length then bs.getD (x - start) 0 else buf.getD x 0 := by
  have hstart : min start buf.length = start := Nat.min_eq_left h
  simp only [overlay, List.getD_eq_getElem?_getD, List.getElem?_append, List.length_append,
    List.length_take, hstart, List.getElem?_take, List.getElem?_drop]
  split
  · split
    · rw [if_neg (by omega)]
    · rw [if_pos (by omega)]
  · rw [if_neg (by omega)]
    congr 2
    omega

/-- `bs` written over a file from `position` on. A gap before it is filled with zeros. -/
def overwrite (contents : List Byte) (position : ℕ) (bs : List Byte) : List Byte :=
  if bs = [] then contents
  else overlay (contents ++ List.replicate (position - contents.length) 0) position bs

theorem overwrite_of_le {contents bs : List Byte} {position : ℕ} (h : position ≤ contents.length) :
    overwrite contents position bs = overlay contents position bs := by
  unfold overwrite
  split
  · rename_i hb
    rw [hb, overlay_nil]
  · rw [Nat.sub_eq_zero_of_le h, List.replicate_zero, List.append_nil]

theorem length_overwrite {contents bs : List Byte} {position : ℕ} (hb : bs ≠ []) :
    (overwrite contents position bs).length = max contents.length (position + bs.length) := by
  simp only [overwrite, if_neg hb, overlay, List.length_append, List.length_take,
    List.length_drop, List.length_replicate]
  omega

/-- Two writes of one length that leave the same file have written the same. -/
theorem overwrite_inj {contents bs bs' : List Byte} {position : ℕ} (hl : bs.length = bs'.length)
    (h : overwrite contents position bs = overwrite contents position bs') : bs = bs' := by
  by_cases hb : bs = []
  · rw [hb, List.length_nil] at hl
    rw [hb, List.length_eq_zero_iff.mp hl.symm]
  · have hb' : bs' ≠ [] := by
      rintro rfl
      exact hb (List.length_eq_zero_iff.mp hl)
    simp only [overwrite, if_neg hb, if_neg hb', overlay, List.append_assoc, hl] at h
    exact (List.append_inj (List.append_cancel_left h) hl).1

/-- A byte of a list of chunks of one size. -/
theorem getD_flatMap {α : Type*} {f : α → List Byte} {c : ℕ} {l : List α} {x : ℕ} (d : α)
    (hc : ∀ a ∈ l, (f a).length = c) (hx : x < c * l.length) :
    (l.flatMap f).getD x 0 = (f (l.getD (x / c) d)).getD (x % c) 0 := by
  induction l generalizing x with
  | nil => simp at hx
  | cons a l ih =>
    have ha := hc a List.mem_cons_self
    rw [List.length_cons, Nat.mul_succ] at hx
    rw [List.flatMap_cons]
    by_cases hlt : x < c
    · rw [Nat.div_eq_of_lt hlt, Nat.mod_eq_of_lt hlt, List.getD_append _ _ _ _ (by omega)]
      rfl
    · have hpos : 0 < c := by
        rcases Nat.eq_zero_or_pos c with rfl | hpos
        · simp at hx
        · exact hpos
      have hle : c ≤ x := by omega
      rw [List.getD_append_right _ _ _ _ (by omega), ha,
        ih (fun b hb => hc b (List.mem_cons_of_mem a hb)) (by omega), Nat.div_eq_sub_div hpos hle,
        List.getD_cons_succ, Nat.mod_eq_sub_mod hle]

/-- The bytes up to the first zero, and that one. -/
def upToZero : List Byte → List Byte
  | [] => []
  | b :: bs => if b = 0 then [0] else b :: upToZero bs

theorem lt_length_upToZero {bs : List Byte} {j : ℕ} :
    j < (upToZero bs).length ↔ j < bs.length ∧ ∀ i < j, bs.getD i 0 ≠ 0 := by
  induction bs generalizing j with
  | nil => simp [upToZero]
  | cons b bs ih =>
    unfold upToZero
    split
    · rename_i hb
      cases j with
      | zero => simp
      | succ j =>
        simp only [List.length_singleton, Nat.succ_lt_succ_iff, Nat.not_lt_zero, false_iff]
        exact fun h => h.2 0 (Nat.zero_lt_succ j) hb
    · rename_i hb
      cases j with
      | zero => simp
      | succ j =>
        rw [List.length_cons, List.length_cons, Nat.succ_lt_succ_iff, Nat.succ_lt_succ_iff, ih]
        refine and_congr_right fun _ => ⟨fun h i hi => ?_, fun h i hi => h (i + 1) (by omega)⟩
        cases i with
        | zero => exact hb
        | succ i => exact h i (by omega)

theorem length_upToZero_le (bs : List Byte) : (upToZero bs).length ≤ bs.length := by
  by_contra hlt
  exact Nat.lt_irrefl _ (lt_length_upToZero.mp (Nat.not_le.mp hlt)).1

theorem getD_upToZero {bs : List Byte} {j : ℕ} (hj : j < (upToZero bs).length) :
    (upToZero bs).getD j 0 = bs.getD j 0 := by
  induction bs generalizing j with
  | nil => rfl
  | cons b bs ih =>
    unfold upToZero at hj ⊢
    split
    · rename_i hb
      rw [if_pos hb, List.length_singleton] at hj
      obtain rfl : j = 0 := by omega
      exact hb.symm
    · rename_i hb
      rw [if_neg hb, List.length_cons] at hj
      cases j with
      | zero => rfl
      | succ j => exact ih (by omega)

/-- Only the bytes up to the first zero matter. -/
theorem upToZero_congr {xs ys : List Byte} (hl : xs.length = ys.length)
    (h : ∀ i < (upToZero ys).length, xs.getD i 0 = ys.getD i 0) : upToZero xs = upToZero ys := by
  have hlength : (upToZero xs).length = (upToZero ys).length := by
    refine eq_of_forall_lt_iff fun j => ?_
    by_cases hj : j < (upToZero ys).length
    · refine iff_of_true (lt_length_upToZero.mpr ?_) hj
      obtain ⟨hlt, hne⟩ := lt_length_upToZero.mp hj
      exact ⟨hl ▸ hlt, fun i hi => (h i (hi.trans hj)).symm ▸ hne i hi⟩
    · refine iff_of_false (fun hjx => ?_) hj
      obtain ⟨hlt, hne⟩ := lt_length_upToZero.mp hjx
      have hend : ¬∀ i < (upToZero ys).length, ys.getD i 0 ≠ 0 := fun hall =>
        Nat.lt_irrefl _ (lt_length_upToZero.mpr ⟨(not_lt.mp hj).trans_lt (hl ▸ hlt), hall⟩)
      push Not at hend
      obtain ⟨i, hi, hz⟩ := hend
      exact hne i (hi.trans_le (not_lt.mp hj)) ((h i hi).trans hz)
  refine ext_getD hlength fun i hi => ?_
  rw [getD_upToZero hi, getD_upToZero (hlength ▸ hi), h i (hlength ▸ hi)]

/-! ## Words -/

/-- The bytes of a word. -/
def ofWord (w : BitVec 32) : List Byte :=
  [w.extractLsb' 0 8, w.extractLsb' 8 8, w.extractLsb' 16 8, w.extractLsb' 24 8]

/-- The word in the first four bytes. -/
def toWord (bs : List Byte) : BitVec 32 :=
  bs.getD 3 0 ++ bs.getD 2 0 ++ bs.getD 1 0 ++ bs.getD 0 0

@[simp] theorem length_ofWord (w : BitVec 32) : (ofWord w).length = 4 := rfl

@[simp] theorem toWord_ofWord (w : BitVec 32) (bs : List Byte) : toWord (ofWord w ++ bs) = w := by
  have : toWord (ofWord w ++ bs) = w.extractLsb' 24 8 ++ w.extractLsb' 16 8 ++
      w.extractLsb' 8 8 ++ w.extractLsb' 0 8 := rfl
  rw [this]
  ext i hi
  simp only [BitVec.getElem_append, BitVec.getElem_extractLsb']
  split
  · simp [BitVec.getLsbD_eq_getElem hi]
  · split
    · rw [← BitVec.getLsbD_eq_getElem hi]
      congr 1
      omega
    · split
      · rw [← BitVec.getLsbD_eq_getElem hi]
        congr 1
        omega
      · rw [← BitVec.getLsbD_eq_getElem hi]
        congr 1
        omega

theorem length_words (ws : List (BitVec 32)) : (ws.flatMap ofWord).length = 4 * ws.length := by
  induction ws with
  | nil => rfl
  | cons w ws ih =>
    rw [List.flatMap_cons, List.length_append, ih, length_ofWord, List.length_cons]
    omega

/-- A word of a list of words. -/
theorem toWord_drop {ws : List (BitVec 32)} {k : ℕ} (hk : k < ws.length) (bs : List Byte) :
    toWord ((ws.flatMap ofWord ++ bs).drop (4 * k)) = ws.getD k 0 := by
  induction ws generalizing k with
  | nil => simp at hk
  | cons w ws ih =>
    rw [List.flatMap_cons, List.append_assoc]
    cases k with
    | zero => simp
    | succ k =>
      have hdrop : (ofWord w ++ (ws.flatMap ofWord ++ bs)).drop (4 * (k + 1)) =
          (ws.flatMap ofWord ++ bs).drop (4 * k) := by
        rw [List.drop_append, List.drop_of_length_le (by rw [length_ofWord]; omega),
          List.nil_append, length_ofWord]
        congr 1
      rw [hdrop, ih (by simpa using hk), List.getD_cons_succ]

end Bytes
