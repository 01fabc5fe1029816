import Nachos.Lib.Bytes
import Nachos.Lib.Word

/-!
# Flat memory

A byte at every 32-bit address, read and written one, two or four bytes at a time. Numbers are
little-endian, and a single byte is read as a signed `char`.
-/

open Bytes (Byte)

/-- What is at each address. -/
abbrev Flat := BitVec 32 → Byte

namespace Bytes

/-- The number that bytes make up, the lowest first. -/
def littleEndian : List Byte → ℕ
  | [] => 0
  | b :: bs => b.toNat + 256 * littleEndian bs

/-- The first bytes of a word are the number in its low bits. -/
theorem littleEndian_ofWord (w : BitVec 32) {n : ℕ} (hn : n ≤ 4) :
    littleEndian ((ofWord w).take n) = w.toNat % 256 ^ n := by
  obtain rfl | rfl | rfl | rfl | rfl : n = 0 ∨ n = 1 ∨ n = 2 ∨ n = 3 ∨ n = 4 := by omega
  all_goals
    simp only [ofWord, List.take, littleEndian, BitVec.extractLsb'_toNat, Nat.shiftRight_eq_div_pow]
    omega

end Bytes

namespace Flat

variable {f g : Flat} {a x : BitVec 32} {bs : List Byte} {n i : ℕ}

/-- The `n` bytes from `a` on. -/
def read (f : Flat) (a : BitVec 32) (n : ℕ) : List Byte :=
  (List.range n).map fun i => f (a + BitVec.ofNat 32 i)

/-- `bs` written from `a` on. -/
def write (f : Flat) (a : BitVec 32) (bs : List Byte) : Flat := fun x =>
  if (x - a).toNat < bs.length then bs.getD (x - a).toNat 0 else f x

theorem write_add (hi : i < bs.length) (hlen : bs.length ≤ 2 ^ 32) :
    write f a bs (a + BitVec.ofNat 32 i) = bs.getD i 0 := by
  have hsub : (a + BitVec.ofNat 32 i - a).toNat = i := by
    rw [BitVec.add_comm, BitVec.add_sub_cancel, Word.toNat_ofNat (by omega)]
  rw [write, hsub, if_pos hi]

theorem write_of_ne (h : ∀ i < bs.length, x ≠ a + BitVec.ofNat 32 i) : write f a bs x = f x := by
  refine if_neg fun hx => h _ hx ?_
  rw [BitVec.ofNat_toNat, BitVec.setWidth_eq, BitVec.add_comm, BitVec.sub_add_cancel]

/-- The value of bytes that have been read. -/
def value : List Byte → BitVec 32
  | [b] => b.signExtend 32
  | bs => BitVec.ofNat 32 (Bytes.littleEndian bs)

theorem toNat_append_byte {w : ℕ} (x : BitVec w) (b : Byte) :
    (x ++ b).toNat = b.toNat + 256 * x.toNat := by
  rw [BitVec.toNat_append, ← Nat.shiftLeft_add_eq_or_of_lt b.isLt, Nat.shiftLeft_eq]
  omega

/-- Two bytes are an unsigned `short`, and four of them an `int`. -/
theorem value_two (b₀ b₁ : Byte) : value [b₀, b₁] = (b₁ ++ b₀ : BitVec 16).zeroExtend 32 := by
  refine BitVec.eq_of_toNat_eq ?_
  have h₀ := b₀.isLt
  have h₁ := b₁.isLt
  rw [BitVec.zeroExtend, BitVec.toNat_setWidth, toNat_append_byte, value, BitVec.toNat_ofNat]
  · rfl
  · intro b hb
    cases hb

theorem value_four (b₀ b₁ b₂ b₃ : Byte) :
    value [b₀, b₁, b₂, b₃] = (b₃ ++ b₂ ++ b₁ ++ b₀ : BitVec 32) := by
  refine BitVec.eq_of_toNat_eq ?_
  have h₀ := b₀.isLt
  have h₁ := b₁.isLt
  have h₂ := b₂.isLt
  have h₃ := b₃.isLt
  rw [toNat_append_byte, toNat_append_byte, toNat_append_byte, value, BitVec.toNat_ofNat]
  · simp only [Bytes.littleEndian]
    omega
  · intro b hb
    cases hb

/-- What a program does with memory. -/
inductive Access
  | read (a : BitVec 32) (size : ℕ)
  | write (a : BitVec 32) (size : ℕ) (v : BitVec 32)

namespace Access

def address : Access → BitVec 32
  | read a _ => a
  | write a _ _ => a

def size : Access → ℕ
  | read _ n => n
  | write _ n _ => n

/-- The memory after an access, and the value that was read. -/
def run : Access → Flat → List (BitVec 32) × Flat
  | read a n, f => ([value (f.read a n)], f)
  | write a n v, f => ([], f.write a ((Bytes.ofWord v).take n))

end Access

/-- The values that a sequence of accesses reads, and the memory it leaves. -/
def runs : List Access → Flat → List (BitVec 32) × Flat
  | [], f => ([], f)
  | x :: xs, f => ((x.run f).1 ++ (runs xs (x.run f).2).1, (runs xs (x.run f).2).2)

/-- What is read depends on the bytes that are read. -/
theorem read_congr (h : ∀ i < n, f (a + BitVec.ofNat 32 i) = g (a + BitVec.ofNat 32 i)) :
    f.read a n = g.read a n :=
  List.map_congr_left fun i hi => h i (List.mem_range.mp hi)

end Flat
