import Nachos.Lib.Bits
import Nachos.Machine.Precise

/-!
# Arithmetic of the architecture

What MIPS-I makes of an instruction word: the fields of the encoding, the numbers of the
operations, and the results. `Decode` and `OneInstruction` are compared with it.
-/
namespace Nachos.Mips

/-- The general registers. -/
abbrev RegFile := Fin 32 → BitVec 32

namespace Architecture

variable (word : BitVec 32) (r : RegFile)

/-! ## The encoding -/

def op : BitVec 6 := word.extractLsb' 26 6
def rs : Fin 32 := (word.extractLsb' 21 5).toFin
def rt : Fin 32 := (word.extractLsb' 16 5).toFin
def rd : Fin 32 := (word.extractLsb' 11 5).toFin
def shamt : BitVec 5 := word.extractLsb' 6 5
def funct : BitVec 6 := word.extractLsb' 0 6
def immediate : BitVec 16 := word.extractLsb' 0 16

/-! ## The operations -/

/-- Logical operations, comparisons, and arithmetic that wraps around: the register that gets the
result, and the result. -/
def logical : Option (Fin 32 × BitVec 32) :=
  let s := r (rs word)
  let t := r (rt word)
  let i := immediate word
  match (op word).toNat, (funct word).toNat with
  | 0x00, 0x21 => some (rd word, s + t) -- ADDU
  | 0x00, 0x23 => some (rd word, s - t) -- SUBU
  | 0x00, 0x24 => some (rd word, s &&& t) -- AND
  | 0x00, 0x25 => some (rd word, s ||| t) -- OR
  | 0x00, 0x26 => some (rd word, s ^^^ t) -- XOR
  | 0x00, 0x27 => some (rd word, ~~~(s ||| t)) -- NOR
  | 0x00, 0x2a => some (rd word, if s.toInt < t.toInt then 1 else 0) -- SLT
  | 0x00, 0x2b => some (rd word, if s.toNat < t.toNat then 1 else 0) -- SLTU
  | 0x09, _ => some (rt word, s + i.signExtend 32) -- ADDIU
  | 0x0a, _ => some (rt word, if s.toInt < i.toInt then 1 else 0) -- SLTI
  | 0x0b, _ => some (rt word, if s.toNat < (i.signExtend 32).toNat then 1 else 0) -- SLTIU
  | 0x0c, _ => some (rt word, s &&& i.setWidth 32) -- ANDI
  | 0x0d, _ => some (rt word, s ||| i.setWidth 32) -- ORI
  | 0x0e, _ => some (rt word, s ^^^ i.setWidth 32) -- XORI
  | 0x0f, _ => some (rt word, i ++ 0#16) -- LUI
  | _, _ => none

/-- How far a shift goes. -/
def shiftAmount : ℕ :=
  match (funct word).toNat with
  | 0x00 | 0x02 | 0x03 => (shamt word).toNat
  | _ => (r (rs word)).toNat % 32

def shift : Option (Fin 32 × BitVec 32) :=
  let t := r (rt word)
  let n := shiftAmount word r
  match (op word).toNat, (funct word).toNat with
  | 0x00, 0x00 | 0x00, 0x04 => some (rd word, t <<< n) -- SLL, SLLV
  | 0x00, 0x02 | 0x00, 0x06 => some (rd word, t >>> n) -- SRL, SRLV
  | 0x00, 0x03 | 0x00, 0x07 => some (rd word, t.sshiftRight n) -- SRA, SRAV
  | _, _ => none

/-- Arithmetic that traps: the register, and the sum or difference. -/
def exact : Option (Fin 32 × ℤ) :=
  let s := r (rs word)
  let t := r (rt word)
  match (op word).toNat, (funct word).toNat with
  | 0x00, 0x20 => some (rd word, s.toInt + t.toInt) -- ADD
  | 0x00, 0x22 => some (rd word, s.toInt - t.toInt) -- SUB
  | 0x08, _ => some (rt word, s.toInt + (immediate word).toInt) -- ADDI
  | _, _ => none

end Architecture

/-! ## Decoding -/

variable {word : BitVec 32} {c : OpCode} {i : ℕ}

theorem toNat_op : (word >>> 26 &&& 0x3f).toNat = (Architecture.op word).toNat :=
  Word.toNat_field word 26 6 rfl

theorem toNat_funct : (word &&& 0x3f).toNat = (Architecture.funct word).toNat := by
  have h : (word >>> 0 &&& 0x3f).toNat = _ := Word.toNat_field word 0 6 rfl
  rwa [BitVec.ushiftRight_zero] at h

theorem regField_eq (start : ℕ) :
    regField word start = ((word.extractLsb' start 5).toFin : Fin 32) := by
  apply Fin.ext
  have h : (word >>> start &&& 0x1f).toNat = _ := Word.toNat_field word start 5 rfl
  rw [regField, Fin.val_ofNat, h]
  exact Nat.mod_eq_of_lt (word.extractLsb' start 5).isLt

/-- The registers that an instruction names. -/
theorem decode_fields (word : BitVec 32) : (decode word).rs = Architecture.rs word ∧
    (decode word).rt = Architecture.rt word ∧ (decode word).rd = Architecture.rd word :=
  ⟨regField_eq 21, regField_eq 16, regField_eq 11⟩

/-- What the tables have more than once. -/
def OpCode.Listed (c : OpCode) : Prop := c ≠ .RES ∧ c ≠ .UNIMP

instance (c : OpCode) : Decidable c.Listed := inferInstanceAs (Decidable (_ ∧ _))

theorem specialTable_idxOf (hi : i < 64) (h : specialTable.getD i .RES = c) (hc : c.Listed) :
    i = specialTable.idxOf c := by
  have hall : ∀ i : Fin 64, (specialTable.getD i .RES).Listed →
      i.val = specialTable.idxOf (specialTable.getD i .RES) := by decide
  have := hall ⟨i, hi⟩
  rw [h] at this
  exact this hc

theorem opTable_idxOf (hi : i < 64) (h : (opTable.getD i (.RES, .IFMT)).1 = c) (hc : c.Listed) :
    i = (opTable.map Prod.fst).idxOf c := by
  have hall : ∀ i : Fin 64, (opTable.getD i (.RES, .IFMT)).1.Listed →
      i.val = (opTable.map Prod.fst).idxOf (opTable.getD i (.RES, .IFMT)).1 := by decide
  have := hall ⟨i, hi⟩
  rw [h] at this
  exact this hc

/-- The numbers of the operations are those of the architecture. -/
theorem specialTable_numbers :
    specialTable.idxOf .SLL = 0x00 ∧ specialTable.idxOf .SRL = 0x02 ∧
    specialTable.idxOf .SRA = 0x03 ∧ specialTable.idxOf .SLLV = 0x04 ∧
    specialTable.idxOf .SRLV = 0x06 ∧ specialTable.idxOf .SRAV = 0x07 ∧
    specialTable.idxOf .ADD = 0x20 ∧ specialTable.idxOf .ADDU = 0x21 ∧
    specialTable.idxOf .SUB = 0x22 ∧ specialTable.idxOf .SUBU = 0x23 ∧
    specialTable.idxOf .AND = 0x24 ∧ specialTable.idxOf .OR = 0x25 ∧
    specialTable.idxOf .XOR = 0x26 ∧ specialTable.idxOf .NOR = 0x27 ∧
    specialTable.idxOf .SLT = 0x2a ∧ specialTable.idxOf .SLTU = 0x2b := by decide

theorem opTable_numbers :
    (opTable.map Prod.fst).idxOf .ADDI = 0x08 ∧ (opTable.map Prod.fst).idxOf .ADDIU = 0x09 ∧
    (opTable.map Prod.fst).idxOf .SLTI = 0x0a ∧ (opTable.map Prod.fst).idxOf .SLTIU = 0x0b ∧
    (opTable.map Prod.fst).idxOf .ANDI = 0x0c ∧ (opTable.map Prod.fst).idxOf .ORI = 0x0d ∧
    (opTable.map Prod.fst).idxOf .XORI = 0x0e ∧ (opTable.map Prod.fst).idxOf .LUI = 0x0f := by
  decide

theorem bcond_not_listed (value : BitVec 32) :
    bcond value ∉ specialTable.filter (· ≠ .UNIMP) ∧ bcond value ∉ [.ADDI, .ADDIU, .SLTI, .SLTIU,
      .ANDI, .ORI, .XORI, .LUI] := by
  simp only [bcond]
  split_ifs <;> decide

/-- An operation of `specialTable` is encoded by its place there. -/
theorem decode_special (h : (decode word).opCode = c) (hc : c.Listed) (hmem : c ∈ specialTable) :
    (Architecture.op word).toNat = 0 ∧ (Architecture.funct word).toNat = specialTable.idxOf c ∧
    (decode word).extra = (Architecture.shamt word).setWidth 32 := by
  have hlt : (Architecture.op word).toNat < 64 := (Architecture.op word).isLt
  have hdirect : ∀ e ∈ opTable, e.1.Listed → e.1 ∉ specialTable := by decide
  have hextra : word >>> 6 &&& 0x1f = (Architecture.shamt word).setWidth 32 := by
    apply BitVec.eq_of_toNat_eq
    have hshamt : (Architecture.shamt word).toNat < 32 := (Architecture.shamt word).isLt
    rw [Word.toNat_field word 6 5 rfl, BitVec.toNat_setWidth]
    exact (Nat.mod_eq_of_lt (by omega)).symm
  simp only [decode, toNat_op] at h ⊢
  simp only [toNat_funct] at h
  split at h
  · rename_i hop
    have hzero := opTable_idxOf hlt hop (by decide)
    refine ⟨hzero, specialTable_idxOf (Architecture.funct word).isLt h hc, ?_⟩
    rw [hzero]
    exact hextra
  · have hlisted : c ∈ specialTable.filter (· ≠ .UNIMP) := by
      rw [List.mem_filter]
      exact ⟨hmem, by simpa using hc.2⟩
    exact absurd (h ▸ hlisted) (bcond_not_listed word).1
  · have hop := getD_of_forall (d := (.RES, .IFMT)) hdirect (by decide) (Architecture.op word).toNat
    rw [h] at hop
    exact absurd hmem (hop hc)

/-- The operations with an immediate operand. -/
def OpCode.immediates : List OpCode := [.ADDI, .ADDIU, .SLTI, .SLTIU, .ANDI, .ORI, .XORI, .LUI]

/-- An operation with an immediate operand is encoded by its place in `opTable`. -/
theorem decode_immediate (h : (decode word).opCode = c) (hmem : c ∈ OpCode.immediates) :
    (Architecture.op word).toNat = (opTable.map Prod.fst).idxOf c ∧
    (decode word).extra = (Architecture.immediate word).signExtend 32 := by
  have hlt : (Architecture.op word).toNat < 64 := (Architecture.op word).isLt
  have hlisted : ∀ c ∈ OpCode.immediates, c.Listed := by decide
  have hformat : ∀ c ∈ OpCode.immediates, (opTable.getD ((opTable.map Prod.fst).idxOf c)
      (.RES, .IFMT)).2 = .IFMT := by
    intro c hc
    simp only [OpCode.immediates, List.mem_cons, List.not_mem_nil, or_false] at hc
    rcases hc with rfl | rfl | rfl | rfl | rfl | rfl | rfl | rfl <;> rfl
  have hspecial : ∀ c ∈ OpCode.immediates, c ∉ specialTable := by decide
  simp only [decode, toNat_op] at h ⊢
  simp only [toNat_funct] at h
  split at h
  · exfalso
    have hfunct : specialTable.getD (Architecture.funct word).toNat .RES ∈ specialTable := by
      have hlen : (Architecture.funct word).toNat < specialTable.length :=
        (Architecture.funct word).isLt
      rw [List.getD_eq_getElem _ _ hlen]
      exact List.getElem_mem hlen
    exact hspecial c hmem (h ▸ hfunct)
  · exact absurd (h ▸ hmem) (bcond_not_listed word).2
  · have hop := opTable_idxOf hlt h (hlisted c hmem)
    refine ⟨hop, ?_⟩
    rw [hop, hformat c hmem]
    exact Word.extend_half word

end Nachos.Mips
