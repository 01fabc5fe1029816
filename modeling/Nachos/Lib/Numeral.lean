import Nachos.Lib.Bytes
import Mathlib.Data.Nat.Digits.Lemmas

/-!
# Decimal numerals

Numbers as characters: the canonical numeral of a number, the value of a list of digits, and
integers as they are typed, with blanks and a sign before the digits.
-/
namespace Numeral

open Bytes (Byte)

variable {n d : ℕ} {c : Byte} {ds : List Byte}

/-- The character of a digit. -/
def digit (d : ℕ) : Byte := BitVec.ofNat 8 (48 + d)

def isDigit (c : Byte) : Bool := 48 ≤ c && c ≤ 57

/-- The number that digits denote, the first one weighing most. -/
def value (ds : List Byte) : ℕ := ds.foldl (fun v c => v * 10 + (c.toNat - 48)) 0

/-- The canonical numeral: no leading zeros, and `0` for zero. -/
def ofNat (n : ℕ) : List Byte := if n = 0 then [digit 0] else (Nat.digits 10 n).reverse.map digit

def ofInt (z : Int) : List Byte := if z < 0 then 45 :: ofNat z.natAbs else ofNat z.natAbs

theorem isDigit_iff : isDigit c = true ↔ 48 ≤ c.toNat ∧ c.toNat ≤ 57 := by
  simp [isDigit, BitVec.le_def]

theorem toNat_digit (hd : d < 10) : (digit d).toNat = 48 + d := by
  rw [digit, BitVec.toNat_ofNat]
  omega

theorem isDigit_digit (hd : d < 10) : isDigit (digit d) = true := by
  rw [isDigit_iff, toNat_digit hd]
  omega

@[simp] theorem value_nil : value [] = 0 := rfl

theorem value_append_singleton (ds : List Byte) (c : Byte) :
    value (ds ++ [c]) = value ds * 10 + (c.toNat - 48) := by
  simp [value, List.foldl_append]

/-- The last digit apart. -/
theorem ofNat_of_lt (hn : n < 10) : ofNat n = [digit n] := by
  rw [ofNat]
  split
  · rename_i h0
    rw [h0]
  · rename_i h0
    rw [Nat.digits_of_lt 10 n h0 hn]
    rfl

theorem ofNat_of_le (hn : 10 ≤ n) : ofNat n = ofNat (n / 10) ++ [digit (n % 10)] := by
  rw [ofNat, ofNat, if_neg (by omega), if_neg (by omega),
    Nat.digits_def' (by decide) (by omega), List.reverse_cons, List.map_append]
  rfl

theorem ofNat_ne_nil (n : ℕ) : ofNat n ≠ [] := by
  rcases Nat.lt_or_ge n 10 with hn | hn
  · rw [ofNat_of_lt hn]
    exact List.cons_ne_nil _ _
  · rw [ofNat_of_le hn]
    exact List.append_ne_nil_of_right_ne_nil _ (List.cons_ne_nil _ _)

theorem isDigit_of_mem_ofNat (hc : c ∈ ofNat n) : isDigit c = true := by
  rw [ofNat] at hc
  split at hc
  · rw [List.mem_singleton.mp hc]
    exact isDigit_digit (by decide)
  · obtain ⟨d, hd, rfl⟩ := List.mem_map.mp hc
    exact isDigit_digit (Nat.digits_lt_base (by decide) (List.mem_reverse.mp hd))

theorem mem_ofInt {z : Int} (hc : c ∈ ofInt z) : c = 45 ∨ isDigit c = true := by
  rw [ofInt] at hc
  split at hc
  · exact (List.mem_cons.mp hc).imp_right isDigit_of_mem_ofNat
  · exact .inr (isDigit_of_mem_ofNat hc)

/-- A numeral denotes its number. -/
theorem value_ofNat (n : ℕ) : value (ofNat n) = n := by
  induction n using Nat.strong_induction_on with
  | _ n ih =>
    rcases Nat.lt_or_ge n 10 with hn | hn
    · rw [ofNat_of_lt hn, ← List.nil_append [digit n], value_append_singleton, toNat_digit hn,
        value_nil]
      omega
    · rw [ofNat_of_le hn, value_append_singleton, ih (n / 10) (by omega),
        toNat_digit (Nat.mod_lt n (by decide))]
      omega

/-! ## Integers as they are typed -/

inductive Sign
  | none
  | plus
  | minus
  deriving DecidableEq

namespace Sign

def bytes : Sign → List Byte
  | none => []
  | plus => [43]
  | minus => [45]

def apply : Sign → ℕ → Int
  | minus, n => -n
  | _, n => n

end Sign

/-- Blanks, a sign or none, and at least one digit. -/
structure Text where
  blanks : ℕ
  sign : Sign
  digits : List Byte
  nonempty : digits ≠ []
  decimal : ∀ c ∈ digits, isDigit c = true

namespace Text

def bytes (x : Text) : List Byte := List.replicate x.blanks 32 ++ (x.sign.bytes ++ x.digits)

def value (x : Text) : Int := x.sign.apply (Numeral.value x.digits)

/-- The numeral of an integer as a text. -/
def ofInt (z : Int) : Text where
  blanks := 0
  sign := if z < 0 then .minus else .none
  digits := ofNat z.natAbs
  nonempty := ofNat_ne_nil _
  decimal _ := isDigit_of_mem_ofNat

theorem bytes_ofInt (z : Int) : (ofInt z).bytes = Numeral.ofInt z := by
  simp only [bytes, ofInt, Numeral.ofInt, List.replicate_zero, List.nil_append]
  split <;> rfl

theorem value_ofInt (z : Int) : (ofInt z).value = z := by
  simp only [value, ofInt, value_ofNat]
  split <;> simp only [Sign.apply] <;> omega

end Text

/-- The `int` that a number counts as, and `0` for a number that none counts as. -/
def toInt32 (z : Int) : Int := if -2147483648 ≤ z ∧ z ≤ 2147483647 then z else 0

/-- A function that reads an `int` and the character behind it, and gives back what is left of the
input. -/
def ReadsInt (read : List Byte → Option (Int × List Byte)) : Prop :=
  ∀ (x : Text) (terminator : Byte) (rest : List Byte), isDigit terminator = false →
    read (x.bytes ++ terminator :: rest) = some (toInt32 x.value, rest)

/-- The digits and the character behind them. -/
def readDigits (sign : Sign) (input : List Byte) : Option (Int × List Byte) :=
  match input.dropWhile isDigit with
  | [] => none
  | _ :: rest => some (toInt32 (sign.apply (value (input.takeWhile isDigit))), rest)

/-- Such a function. -/
def read (input : List Byte) : Option (Int × List Byte) :=
  match input.dropWhile (· == 32) with
  | [] => none
  | c :: cs =>
    if c = 45 then readDigits .minus cs
    else if c = 43 then readDigits .plus cs
    else readDigits .none (c :: cs)

theorem readDigits_append (sign : Sign) {terminator : Byte} (rest : List Byte)
    (hds : ∀ c ∈ ds, isDigit c = true) (ht : isDigit terminator = false) :
    readDigits sign (ds ++ terminator :: rest) = some (toInt32 (sign.apply (value ds)), rest) := by
  have htake : (ds ++ terminator :: rest).takeWhile isDigit = ds := by
    rw [List.takeWhile_append_of_pos hds, List.takeWhile_cons, ht]
    simp
  have hdrop : (ds ++ terminator :: rest).dropWhile isDigit = terminator :: rest := by
    rw [List.dropWhile_append_of_pos hds, List.dropWhile_cons, ht]
    rfl
  rw [readDigits, htake, hdrop]

theorem readsInt_read : ReadsInt read := by
  intro x terminator rest ht
  have hblanks : ∀ cs : List Byte, (List.replicate x.blanks 32 ++ cs).dropWhile (· == 32) =
      cs.dropWhile (· == 32) := fun cs =>
    List.dropWhile_append_of_pos fun c hc => beq_iff_eq.mpr (List.eq_of_mem_replicate hc)
  have hdigits := readDigits_append x.sign rest x.decimal ht
  rw [read, Text.bytes, List.append_assoc, hblanks, List.append_assoc]
  cases hsign : x.sign with
  | minus =>
    rw [hsign] at hdigits
    simpa [Sign.bytes, Text.value, hsign] using hdigits
  | plus =>
    rw [hsign] at hdigits
    simpa [Sign.bytes, Text.value, hsign] using hdigits
  | none =>
    rw [hsign] at hdigits
    obtain ⟨c, cs, hcs⟩ := List.exists_cons_of_ne_nil x.nonempty
    have hc := isDigit_iff.mp (x.decimal c (by simp [hcs]))
    have h32 : c ≠ 32 := by rintro rfl; simp at hc
    have h43 : c ≠ 43 := by rintro rfl; simp at hc
    have h45 : c ≠ 45 := by rintro rfl; simp at hc
    have hdrop : ∀ l : List Byte, (c :: l).dropWhile (· == 32) = c :: l := by
      intro l
      rw [List.dropWhile_cons, if_neg fun h => h32 (beq_iff_eq.mp h)]
    have hlist : Sign.none.bytes ++ (c :: cs ++ terminator :: rest) =
        c :: (cs ++ terminator :: rest) := rfl
    rw [Text.value, hsign, hcs, hlist, hdrop]
    simp only [if_neg h45, if_neg h43]
    rw [hcs] at hdigits
    exact hdigits

/-- What is printed as a numeral is read as it was. -/
theorem ReadsInt.roundTrip {read : List Byte → Option (Int × List Byte)} (h : ReadsInt read)
    {z : Int} (h1 : -2147483648 ≤ z) (h2 : z ≤ 2147483647) :
    read (ofInt z ++ [10]) = some (z, []) := by
  have hread := h (.ofInt z) 10 [] (by decide)
  rw [Text.bytes_ofInt, Text.value_ofInt, toInt32, if_pos ⟨h1, h2⟩] at hread
  exact hread

end Numeral
