import Nachos.Userprog.ReadInt

/-!
# Printing an integer

`PrintInt` for every `int`: the loop that takes the digits off, and the loop that turns them around.
-/
namespace Nachos

open Bytes (Byte)
open Command (onSecond)

namespace Services

open Handler

variable {S : Type} (k : Services S)

/-- The first loop of `Exception_PrintInt` with its array `tmp`. -/
def takeDigits : ℕ → List (BitVec 32) → ℕ → BitVec 32 → Handler S (List (BitVec 32) × ℕ)
  | 0, _, _, _ => Command.stop
  | fuel + 1, tmp, j, n => do
    let tmp ← storeAt tmp j (n.srem 10)
    if n.sdiv 10 = 0 then pure (tmp, j + 1) else takeDigits fuel tmp (j + 1) (n.sdiv 10)

def digitChar (d : BitVec 32) : Byte := 48 + d.truncate 8

/-- The second loop, with `j` digits left. -/
def turnDigits (tmp : List (BitVec 32)) : ℕ → List Byte → ℕ → Handler S (List Byte × ℕ)
  | 0, numString, i => pure (numString, i)
  | j + 1, numString, i => do
    let numString ← storeAt numString i (digitChar (tmp.getD j 0))
    turnDigits tmp j numString (i + 1)

/-- Both loops, with `i` characters in `num_string`: the characters for the console. -/
def convert (n : BitVec 32) (numString : List Byte) (i : ℕ) : Handler S (List Byte) := do
  let (tmp, j) ← takeDigits 11 (List.replicate 11 0) 0 n
  let (numString, i) ← turnDigits tmp j numString i
  pure (numString.take i)

/-- `Exception_PrintInt` with every store into its arrays checked. -/
def exceptionPrintIntChecked : Handler S Unit := do
  let n ← readRegister 4
  let numString := List.replicate 11 0
  let written ← if n.toInt < 0 then do
      let numString ← storeAt numString 0 45
      convert (-n) numString 1
    else convert n numString 0
  onSecond (k.consoleWrite written)
  writeRegister 2 0

variable {n x : BitVec 32} {f g i j : ℕ} {tmp : List (BitVec 32)} {numString : List Byte}

/-! ## The digits -/

theorem toInt_sdiv_ten (x : BitVec 32) : (x.sdiv 10).toInt = x.toInt.tdiv 10 := by
  have hten : (10 : BitVec 32).toInt = 10 := rfl
  have hle := x.le_toInt
  have hlt := x.toInt_lt
  have hdiv : (x.toInt.tdiv 10).natAbs = x.toInt.natAbs / 10 := Int.natAbs_tdiv _ _
  rw [BitVec.toInt_sdiv, hten]
  generalize x.toInt.tdiv 10 = q at hdiv
  exact Int.bmod_eq_of_le (by omega) (by omega)

theorem natAbs_sdiv_ten (x : BitVec 32) : (x.sdiv 10).toInt.natAbs = x.toInt.natAbs / 10 := by
  rw [toInt_sdiv_ten, Int.natAbs_tdiv]
  rfl

theorem sdiv_ten_eq_zero (x : BitVec 32) : x.sdiv 10 = 0 ↔ x.toInt.natAbs < 10 := by
  have hdiv := natAbs_sdiv_ten x
  constructor
  · intro h
    rw [h] at hdiv
    have : (0 : BitVec 32).toInt.natAbs = 0 := rfl
    omega
  · intro h
    apply BitVec.eq_of_toInt_eq
    have : (0 : BitVec 32).toInt = 0 := rfl
    omega

theorem digits_of_lt (hx : x.toInt.natAbs < 10) : digits (f + 1) x = [x.srem 10] := by
  rw [digits, if_pos ((sdiv_ten_eq_zero x).mpr hx)]

theorem digits_of_le (hx : 10 ≤ x.toInt.natAbs) :
    digits (f + 1) x = x.srem 10 :: digits f (x.sdiv 10) := by
  rw [digits, if_neg fun h => absurd ((sdiv_ten_eq_zero x).mp h) (by omega)]

/-- One digit less is left of a number of two digits or more. -/
theorem div_ten_lt {m : ℕ} (hm : 10 ≤ m) (hlt : m < 10 ^ (f + 1)) : 0 < f ∧ m / 10 < 10 ^ f := by
  rcases Nat.eq_zero_or_pos f with rfl | hf
  · omega
  · rw [pow_succ] at hlt
    exact ⟨hf, by omega⟩

theorem length_digits_le (hg : 0 < g) (hx : x.toInt.natAbs < 10 ^ g) (f : ℕ) :
    (digits f x).length ≤ g := by
  induction f generalizing x g with
  | zero => exact Nat.zero_le _
  | succ f ih =>
    rcases Nat.lt_or_ge x.toInt.natAbs 10 with hlt | hle
    · rw [digits_of_lt hlt]
      exact hg
    · obtain ⟨g, rfl⟩ := Nat.exists_eq_succ_of_ne_zero hg.ne'
      obtain ⟨hg', hdiv⟩ := div_ten_lt hle hx
      rw [← natAbs_sdiv_ten] at hdiv
      have := ih hg' hdiv
      rw [digits_of_le hle, List.length_cons]
      omega

/-! ## The loops -/

/-- The loop that takes the digits off ends before `tmp` does. -/
theorem takeDigits_eq (hf : 0 < f) (hx : x.toInt.natAbs < 10 ^ f) (hj : j + f ≤ tmp.length) :
    (takeDigits f tmp j x : Handler S _) = pure
      (tmp.take j ++ digits f x ++ tmp.drop (j + (digits f x).length),
        j + (digits f x).length) := by
  induction f generalizing x tmp j with
  | zero => omega
  | succ f ih =>
    have hset : (storeAt tmp j (x.srem 10) : Handler S _) = pure (tmp.set j (x.srem 10)) :=
      if_pos (by omega)
    rw [takeDigits, hset, pure_bind]
    rcases Nat.lt_or_ge x.toInt.natAbs 10 with hlt | hle
    · rw [if_pos ((sdiv_ten_eq_zero x).mpr hlt), digits_of_lt hlt,
        List.set_eq_take_append_cons_drop, if_pos (by omega)]
      simp
    · obtain ⟨hpos, hdiv⟩ := div_ten_lt hle hx
      rw [← natAbs_sdiv_ten] at hdiv
      have hlen : j + 1 + (digits f (x.sdiv 10)).length =
          j + (x.srem 10 :: digits f (x.sdiv 10)).length := by
        rw [List.length_cons]
        omega
      rw [if_neg fun h => absurd ((sdiv_ten_eq_zero x).mp h) (by omega), digits_of_le hle,
        ih hpos hdiv (by rw [List.length_set]; omega),
        take_set (by omega), List.drop_set_of_lt (by omega), hlen, List.append_assoc (tmp.take j)]
      rfl

/-- The loop that turns them around stays in `numString` if there is room for them. -/
theorem turnDigits_eq (hj : j ≤ tmp.length) (hi : i + j ≤ numString.length) :
    (turnDigits tmp j numString i : Handler S _) = pure
      (numString.take i ++ (tmp.take j).reverse.map digitChar ++ numString.drop (i + j), i + j) := by
  induction j generalizing numString i with
  | zero => simp [turnDigits]
  | succ j ih =>
    have hset : (storeAt numString i (digitChar (tmp.getD j 0)) : Handler S _) =
      pure (numString.set i (digitChar (tmp.getD j 0))) := if_pos (by omega)
    have htake : tmp.take (j + 1) = tmp.take j ++ [tmp.getD j 0] := by
      rw [List.take_succ_eq_append_getElem (by omega), List.getD_eq_getElem _ _ (by omega)]
    rw [turnDigits, hset, pure_bind, ih (by omega) (by rw [List.length_set]; omega),
      take_set (by omega), List.drop_set_of_lt (by omega), htake,
      show i + 1 + j = i + (j + 1) by omega]
    simp

/-- What the digits are taken from. The smallest `int` is its own negative. -/
def magnitude (n : BitVec 32) : BitVec 32 := if n.toInt < 0 then -n else n

theorem natAbs_magnitude (n : BitVec 32) : (magnitude n).toInt.natAbs = n.toInt.natAbs := by
  have hle := n.le_toInt
  rw [magnitude]
  split
  · rw [BitVec.toInt_neg]
    by_cases hmin : n.toInt = -2147483648
    · rw [hmin]
      rfl
    · rw [Int.bmod_eq_of_le (by omega) (by omega), Int.natAbs_neg]
  · rfl

theorem natAbs_magnitude_lt (n : BitVec 32) : (magnitude n).toInt.natAbs < 10 ^ 10 := by
  have hle := n.le_toInt
  have hlt := n.toInt_lt
  rw [natAbs_magnitude]
  omega

theorem convert_eq (hx : x.toInt.natAbs < 10 ^ 10) (hi : i ≤ 1) (hsize : numString.length = 11) :
    (convert x numString i : Handler S _) =
      pure (numString.take i ++ (digits 11 x).reverse.map digitChar) := by
  have hlength := length_digits_le (by decide) hx 11
  have htake := takeDigits_eq (S := S) (f := 11) (j := 0) (by decide) (hx.trans (by decide))
    (show 0 + 11 ≤ (List.replicate 11 (0 : BitVec 32)).length by simp)
  rw [List.take_zero, List.nil_append, Nat.zero_add] at htake
  rw [convert, htake, pure_bind]
  simp only
  rw [turnDigits_eq (by simp) (by omega), pure_bind, List.take_left' rfl]
  congr 1
  rw [List.take_left']
  simp only [List.length_append, List.length_take, List.length_map, List.length_reverse]
  omega

/-- No store of `Exception_PrintInt` is outside its arrays, and the loops end. -/
theorem exceptionPrintIntChecked_eq : k.exceptionPrintIntChecked = k.exceptionPrintInt := by
  unfold exceptionPrintIntChecked exceptionPrintInt
  congr 1
  funext n
  have hlt := natAbs_magnitude_lt n
  rw [magnitude] at hlt
  by_cases hn : n.toInt < 0
  · simp only [if_pos hn] at hlt ⊢
    rw [storeAt, if_pos (by simp), pure_bind, convert_eq hlt le_rfl (by simp), pure_bind]
    rfl
  · simp only [if_neg hn] at hlt ⊢
    rw [convert_eq hlt (Nat.zero_le 1) (by simp), pure_bind]
    rfl

theorem digitChar_ofNat {d : ℕ} (hd : d < 10) :
    digitChar (BitVec.ofNat 32 d) = Numeral.digit d := by
  have h48 : (48 : Byte).toNat = 48 := rfl
  apply BitVec.eq_of_toNat_eq
  rw [Numeral.toNat_digit hd, digitChar, BitVec.toNat_add, BitVec.truncate_eq_setWidth,
    BitVec.toNat_setWidth, Word.toNat_ofNat (by omega)]
  omega

/-- The digits of a number, turned around, are its numeral. -/
theorem digits_ofNat {m : ℕ} (hf : 0 < f) (hm : m < 2 ^ 31) (hx : m < 10 ^ f) :
    (digits f (BitVec.ofNat 32 m)).reverse.map digitChar = Numeral.ofNat m := by
  induction f generalizing m with
  | zero => omega
  | succ f ih =>
    have hint := Word.toInt_ofNat hm
    have hrem : (BitVec.ofNat 32 m).srem 10 = BitVec.ofNat 32 (m % 10) :=
      Word.srem_ofNat hm (by decide)
    have hdiv : (BitVec.ofNat 32 m).sdiv 10 = BitVec.ofNat 32 (m / 10) :=
      Word.sdiv_ofNat hm (by decide)
    have hlast := digitChar_ofNat (Nat.mod_lt m (by decide : 0 < 10))
    rcases Nat.lt_or_ge m 10 with hlt | hle
    · rw [digits_of_lt (by omega), hrem, Numeral.ofNat_of_lt hlt]
      rw [Nat.mod_eq_of_lt hlt] at hlast ⊢
      simp [hlast]
    · obtain ⟨hpos, hten⟩ := div_ten_lt hle hx
      have hrest := ih hpos (by omega) hten
      rw [digits_of_le (by omega), hrem, hdiv, List.reverse_cons, List.map_append, hrest,
        Numeral.ofNat_of_le hle]
      simp [hlast]

end Services

/-- What `PrintInt` writes. -/
def printed (n : BitVec 32) : List Byte :=
  (if n.toInt < 0 then [45] else []) ++
    (Services.digits 11 (Services.magnitude n)).reverse.map Services.digitChar

/-- It is the numeral, unless the number has no negative. -/
theorem printed_iff (n : BitVec 32) :
    printed n = Numeral.ofInt n.toInt ↔ n.toInt ≠ -2147483648 := by
  have hle := n.le_toInt
  have hlt := n.toInt_lt
  constructor
  · intro h hmin
    have hn : n = 0x80000000 := BitVec.eq_of_toInt_eq hmin
    subst hn
    -- the last digit comes out as `'0' - 8`
    have hmem : (40 : Byte) ∈ Numeral.ofInt (0x80000000 : BitVec 32).toInt := by
      rw [← h]
      decide
    exact absurd (Numeral.mem_ofInt hmem) (by decide)
  · intro hmin
    have hpos : 0 ≤ (Services.magnitude n).toInt := by
      rw [Services.magnitude]
      split
      · rw [BitVec.toInt_neg, Int.bmod_eq_of_le (by omega) (by omega)]
        omega
      · omega
    have habs := Services.natAbs_magnitude n
    have hword : Services.magnitude n = BitVec.ofNat 32 n.toInt.natAbs := by
      apply BitVec.eq_of_toInt_eq
      rw [Word.toInt_ofNat (by omega)]
      omega
    rw [printed, hword, Services.digits_ofNat (by decide) (by omega) (by omega), Numeral.ofInt]
    split <;> rfl

/-- `PrintInt` has come back and has written the numeral, no store has left its arrays, and what
it has written is read as the number by any function that reads an `int`. -/
structure PrintsNumber (ch : Byte) (fuel : ℕ) (r : Registers) (s : Terminal) : Prop where
  returns : ∃ r' written, (Terminal.services ch).exceptionHandler fuel .SyscallException (r, s) =
      some ((), r', { s with output := s.output ++ written }) ∧
    written = Numeral.ofInt (r 4).toInt ∧
    ∀ read, Numeral.ReadsInt read → read (written ++ [10]) = some ((r 4).toInt, [])
  inside : (Terminal.services ch).exceptionPrintIntChecked (r, s) =
    (Terminal.services ch).exceptionPrintInt (r, s)

theorem exceptionPrintInt_run (ch : Byte) (r : Registers) (s : Terminal) :
    (Terminal.services ch).exceptionPrintInt (r, s) =
      some ((), r.writeRegister 2 0, { s with output := s.output ++ printed (r 4) }) := rfl

theorem printInt_iff {ch : Byte} {fuel : ℕ} {r : Registers} {s : Terminal} (hcode : r 2 = 12) :
    PrintsNumber ch fuel r s ↔ (r 4).toInt ≠ -2147483648 := by
  have hhandler : (Terminal.services ch).handlerOf fuel (r 2).toNat =
      some (Terminal.services ch).exceptionPrintInt := by
    rw [hcode]
    rfl
  have hrun := Services.exceptionHandler_of_some hhandler (exceptionPrintInt_run ch r s)
  rw [← printed_iff]
  constructor
  · rintro ⟨⟨r', written, h, rfl, -⟩, -⟩
    rw [hrun, Option.some.injEq] at h
    exact List.append_cancel_left (congrArg (fun a => a.2.2.output) h)
  · intro h
    refine ⟨⟨_, _, hrun, h, fun read hread => ?_⟩, ?_⟩
    · have hle := (r 4).le_toInt
      have hlt := (r 4).toInt_lt
      rw [h]
      exact hread.roundTrip (by omega) (by omega)
    · rw [Services.exceptionPrintIntChecked_eq]

theorem printInt_negative :
    PrintsNumber 0 0 (callRegisters 12 (-105) 0 0) (.sample (fun _ => 0) []) :=
  (printInt_iff rfl).mpr (by decide)

/-- The digits of the smallest `int` are not digits. -/
theorem printInt_smallest :
    ¬PrintsNumber 0 0 (callRegisters 12 0x80000000 0 0) (.sample (fun _ => 0) []) := by
  rintro ⟨⟨r', written, h, hwritten, -⟩, -⟩
  have houtput : ((Terminal.services 0).exceptionHandler 0 .SyscallException
      (callRegisters 12 0x80000000 0 0, .sample (fun _ => 0) [])).map (fun a => a.2.2.output) =
        some [45, 46, 47, 44, 41, 44, 40, 45, 42, 44, 40] := by decide +kernel
  rw [h, Option.map_some, Option.some.injEq] at houtput
  have hout : written = [45, 46, 47, 44, 41, 44, 40, 45, 42, 44, 40] := houtput
  have hmem : (46 : Byte) ∈ Numeral.ofInt (callRegisters 12 0x80000000 0 0 4).toInt := by
    rw [← hwritten, hout]
    decide
  exact absurd (Numeral.mem_ofInt hmem) (by decide)

end Nachos
