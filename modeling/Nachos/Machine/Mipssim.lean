import Nachos.Lib.Trap
import Nachos.Machine.Memory

/-!
# The instructions of the simulated machine

`Machine::OneInstruction` with `Instruction::Decode` (`mipssim.cc`, `mipssim.h`), and
`ReadMem` and `WriteMem` for all sizes (`translate.cc`). The host is an i386: words are
little-endian, `int` arithmetic wraps, and a division whose quotient does not fit faults.
There is no TLB.
-/
namespace Nachos.Mips

open Bytes (Byte)

/-- The values of `opCode`, and the two markers of `opTable` for further decoding. -/
inductive OpCode
  | ADD | ADDI | ADDIU | ADDU | AND | ANDI | BEQ | BGEZ | BGEZAL | BGTZ | BLEZ | BLTZ | BLTZAL
  | BNE | DIV | DIVU | J | JAL | JALR | JR | LB | LBU | LH | LHU | LUI | LW | LWL | LWR | MFHI
  | MFLO | MTHI | MTLO | MULT | MULTU | NOR | OR | ORI | RFE | SB | SH | SLL | SLLV | SLT | SLTI
  | SLTIU | SLTU | SRA | SRAV | SRL | SRLV | SUB | SUBU | SW | SWL | SWR | XOR | XORI | SYSCALL
  | UNIMP | RES | SPECIAL | BCOND
  deriving DecidableEq

namespace OpCode

/-- The numbers of `mipssim.h`. -/
def number : OpCode → ℕ
  | ADD => 1 | ADDI => 2 | ADDIU => 3 | ADDU => 4 | AND => 5 | ANDI => 6 | BEQ => 7 | BGEZ => 8
  | BGEZAL => 9 | BGTZ => 10 | BLEZ => 11 | BLTZ => 12 | BLTZAL => 13 | BNE => 14 | DIV => 16
  | DIVU => 17 | J => 18 | JAL => 19 | JALR => 20 | JR => 21 | LB => 22 | LBU => 23 | LH => 24
  | LHU => 25 | LUI => 26 | LW => 27 | LWL => 28 | LWR => 29 | MFHI => 31 | MFLO => 32
  | MTHI => 34 | MTLO => 35 | MULT => 36 | MULTU => 37 | NOR => 38 | OR => 39 | ORI => 40
  | RFE => 41 | SB => 42 | SH => 43 | SLL => 44 | SLLV => 45 | SLT => 46 | SLTI => 47
  | SLTIU => 48 | SLTU => 49 | SRA => 50 | SRAV => 51 | SRL => 52 | SRLV => 53 | SUB => 54
  | SUBU => 55 | SW => 56 | SWL => 57 | SWR => 58 | XOR => 59 | XORI => 60 | SYSCALL => 61
  | UNIMP => 62 | RES => 63 | SPECIAL => 100 | BCOND => 101

def MaxOpcode : ℕ := 63

end OpCode

inductive Format
  | IFMT | JFMT | RFMT

open OpCode Format in
def opTable : List (OpCode × Format) :=
  [(SPECIAL, RFMT), (BCOND, IFMT), (J, JFMT), (JAL, JFMT),
    (BEQ, IFMT), (BNE, IFMT), (BLEZ, IFMT), (BGTZ, IFMT),
    (ADDI, IFMT), (ADDIU, IFMT), (SLTI, IFMT), (SLTIU, IFMT),
    (ANDI, IFMT), (ORI, IFMT), (XORI, IFMT), (LUI, IFMT),
    (UNIMP, IFMT), (UNIMP, IFMT), (UNIMP, IFMT), (UNIMP, IFMT),
    (RES, IFMT), (RES, IFMT), (RES, IFMT), (RES, IFMT),
    (RES, IFMT), (RES, IFMT), (RES, IFMT), (RES, IFMT),
    (RES, IFMT), (RES, IFMT), (RES, IFMT), (RES, IFMT),
    (LB, IFMT), (LH, IFMT), (LWL, IFMT), (LW, IFMT),
    (LBU, IFMT), (LHU, IFMT), (LWR, IFMT), (RES, IFMT),
    (SB, IFMT), (SH, IFMT), (SWL, IFMT), (SW, IFMT),
    (RES, IFMT), (RES, IFMT), (SWR, IFMT), (RES, IFMT),
    (UNIMP, IFMT), (UNIMP, IFMT), (UNIMP, IFMT), (UNIMP, IFMT),
    (RES, IFMT), (RES, IFMT), (RES, IFMT), (RES, IFMT),
    (UNIMP, IFMT), (UNIMP, IFMT), (UNIMP, IFMT), (UNIMP, IFMT),
    (RES, IFMT), (RES, IFMT), (RES, IFMT), (RES, IFMT)]

open OpCode in
def specialTable : List OpCode :=
  [SLL, RES, SRL, SRA, SLLV, RES, SRLV, SRAV,
    JR, JALR, RES, RES, SYSCALL, UNIMP, RES, RES,
    MFHI, MTHI, MFLO, MTLO, RES, RES, RES, RES,
    MULT, MULTU, DIV, DIVU, RES, RES, RES, RES,
    ADD, ADDU, SUB, SUBU, AND, OR, XOR, NOR,
    RES, RES, SLT, SLTU, RES, RES, RES, RES,
    RES, RES, RES, RES, RES, RES, RES, RES,
    RES, RES, RES, RES, RES, RES, RES, RES]

/-- `class Instruction`, decoded. -/
structure Instruction where
  opCode : OpCode
  rs : Fin 32
  rt : Fin 32
  rd : Fin 32
  extra : BitVec 32

/-- Five bits of a word that name a register. -/
def regField (value : BitVec 32) (shift : ℕ) : Fin 32 :=
  Fin.ofNat 32 (value >>> shift &&& 0x1f).toNat

/-- The decoding of `BCOND`. -/
def bcond (value : BitVec 32) : OpCode :=
  let i := value &&& 0x1f0000
  if i = 0 then .BLTZ
  else if i = 0x10000 then .BGEZ
  else if i = 0x100000 then .BLTZAL
  else if i = 0x110000 then .BGEZAL
  else .UNIMP

/-- `Instruction::Decode`. -/
def decode (value : BitVec 32) : Instruction :=
  let opPtr := opTable.getD (value >>> 26 &&& 0x3f).toNat (.RES, .IFMT)
  { rs := regField value 21
    rt := regField value 16
    rd := regField value 11
    opCode :=
      match opPtr.1 with
      | .SPECIAL => specialTable.getD (value &&& 0x3f).toNat .RES
      | .BCOND => bcond value
      | opCode => opCode
    extra :=
      match opPtr.2 with
      | .IFMT =>
        let extra := value &&& 0xffff
        if extra &&& 0x8000 ≠ 0 then extra ||| 0xffff0000 else extra
      | .RFMT => value >>> 6 &&& 0x1f
      | .JFMT => value &&& 0x3ffffff }

/-! ## Multiplication -/

/-- The variables of the loop of `Mult`. -/
structure Mult where
  a : BitVec 32
  bLo : BitVec 32
  bHi : BitVec 32
  lo : BitVec 32
  hi : BitVec 32

namespace Mult

/-- `a` has bit 0 set: `b` is added to the result. -/
def add (v : Mult) : Mult :=
  let lo := v.lo + v.bLo
  { v with lo, hi := (if lo < v.bLo then v.hi + 1 else v.hi) + v.bHi }

def shift (v : Mult) : Mult :=
  { v with
    bHi := if v.bLo &&& 0x80000000 ≠ 0 then v.bHi <<< 1 ||| 1 else v.bHi <<< 1
    bLo := v.bLo <<< 1
    a := v.a.sshiftRight 1 }

/-- The loop, with its `break`. -/
def loop : ℕ → Mult → Mult
  | 0, v => v
  | n + 1, v =>
    if v.a &&& 1 ≠ 0 then
      if v.a &&& 0xfffffffe = 0 then v.add else loop n v.add.shift
    else loop n v.shift

/-- `Mult`: the words `hi` and `lo`. -/
def mult (a b : BitVec 32) (signedArith : Bool) : BitVec 32 × BitVec 32 :=
  if a = 0 ∨ b = 0 then (0, 0)
  else
    let negA := signedArith && a.slt 0
    let negB := signedArith && b.slt 0
    let v := loop 32 ⟨if negA then -a else a, if negB then -b else b, 0, 0, 0⟩
    if negA != negB then
      let lo := ~~~v.lo + 1
      (if lo = 0 then ~~~v.hi + 1 else ~~~v.hi, lo)
    else (v.hi, v.lo)

end Mult

/-! ## The processor -/

/-- `class Machine`, as an instruction sees it. -/
structure Machine where
  registers : Registers
  memory : UserMemory

/-- How the simulator itself can go down. -/
inductive Crash
  | assertFailed
  /-- A quotient that no `int` can hold. -/
  | divisionFault
  /-- `DelayedLoad` stores outside the register file. -/
  | wildStore
  deriving DecidableEq

/-- Code of the simulator. A trap is a call of `RaiseException`, with the state in which the
exception handler gets the machine. -/
abbrev SimM := TrapM Machine ExceptionType Crash

namespace Machine

open TrapM (gets update crash)
open Registers

abbrev HiReg : Fin NumTotalRegs := 32
abbrev LoReg : Fin NumTotalRegs := 33
abbrev R31 : Fin NumTotalRegs := 31

def SIGN_BIT : BitVec 32 := 0x80000000

def IndexToAddr (x : BitVec 32) : BitVec 32 := x <<< 2

def readReg (i : Fin NumTotalRegs) : SimM (BitVec 32) := gets fun m => m.registers i

def writeReg (i : Fin NumTotalRegs) (value : BitVec 32) : SimM Unit :=
  update fun m => { m with registers := m.registers.writeRegister i value }

/-- The registers 0 and 31, as an instruction names them. -/
abbrev r0 : Fin 32 := 0
abbrev r31 : Fin 32 := 31

/-- A register named by an instruction. -/
def gpr (i : Fin 32) : Fin NumTotalRegs := i.castLE (by decide)

def assert (p : Prop) [Decidable p] : SimM Unit := if p then pure () else crash .assertFailed

/-- `Machine::DelayedLoad`. -/
def delayedLoad (nextReg nextValue : BitVec 32) : SimM Unit := fun m =>
  if (m.registers LoadReg).toNat < NumTotalRegs then
    .done () { m with registers := m.registers.delayedLoad nextReg nextValue }
  else .crashed .wildStore

/-- `Machine::RaiseException`, up to the call of the handler. -/
def raiseException {α : Type} (which : ExceptionType) (badVAddr : BitVec 32) : SimM α := do
  writeReg BadVAddrReg badVAddr
  delayedLoad 0 0
  fun m => .trapped which m

/-- `Machine::Translate`, and what `ReadMem` and `WriteMem` do with an exception. -/
def translate (addr : BitVec 32) (size : ℕ) (writing : Bool) : SimM Int := fun m =>
  match Nachos.translate m.memory.pageTable m.memory.pageTableSize addr size writing with
  | .error exception => raiseException exception addr m
  | .ok (physAddr, entry) =>
    if 0 ≤ physAddr.toInt ∧ physAddr.toInt + size ≤ MemorySize then
      .done physAddr.toInt
        { m with
          memory :=
            { m.memory with
              pageTable := Function.update m.memory.pageTable (addr.toNat / PageSize) entry } }
    else .crashed .assertFailed

/-- `Machine::ReadMem`. A byte is a signed `char`. -/
def readMem (addr : BitVec 32) (size : ℕ) : SimM (BitVec 32) := do
  let p ← translate addr size false
  let mem ← gets fun m => m.memory.mainMemory
  if size = 1 then pure ((mem p).signExtend 32)
  else if size = 2 then pure ((mem (p + 1) ++ mem p).zeroExtend 32)
  else if size = 4 then pure (mem (p + 3) ++ mem (p + 2) ++ mem (p + 1) ++ mem p)
  else crash .assertFailed

/-- `Machine::WriteMem`. -/
def writeMem (addr : BitVec 32) (size : ℕ) (value : BitVec 32) : SimM Unit := do
  let p ← translate addr size true
  if size = 1 ∨ size = 2 ∨ size = 4 then
    update fun m =>
      { m with
        memory :=
          { m.memory with
            mainMemory := Bytes.store m.memory.mainMemory p ((Bytes.ofWord value).take size) } }
  else crash .assertFailed

/-- What is left to do when an instruction has been executed. -/
structure Rest where
  pcAfter : BitVec 32
  nextLoadReg : Fin 32
  nextLoadValue : BitVec 32

/-- The end of a conditional branch. -/
def branchIf (taken : Bool) (pcAfter extra : BitVec 32) : SimM Rest := do
  let nextPC ← readReg NextPCReg
  pure ⟨if taken then nextPC + IndexToAddr extra else pcAfter, 0, 0⟩

/-- `registers[R31] = registers[NextPCReg] + 4`. -/
def link (i : Fin NumTotalRegs) : SimM Unit := do
  let nextPC ← readReg NextPCReg
  writeReg i (nextPC + 4)

/-- The effective address of a load or store. -/
def effectiveAddr (instr : Instruction) : SimM (BitVec 32) := do
  let rs ← readReg (gpr instr.rs)
  pure (rs + instr.extra)

/-- The old value of the register that `LWL` and `LWR` load into part by part. -/
def loadedSoFar (rt : Fin 32) : SimM (BitVec 32) := do
  let loadReg ← readReg LoadReg
  if loadReg = BitVec.ofNat 32 rt then readReg LoadValueReg else readReg (gpr rt)

/-- `registers[rd] = f(registers[rs], registers[rt])`. -/
def alu (instr : Instruction) (pcAfter : BitVec 32)
    (f : BitVec 32 → BitVec 32 → BitVec 32) : SimM Rest := do
  let rs ← readReg (gpr instr.rs)
  let rt ← readReg (gpr instr.rt)
  writeReg (gpr instr.rd) (f rs rt)
  pure ⟨pcAfter, 0, 0⟩

/-- `registers[rt] = f(registers[rs], extra)`. -/
def aluImm (instr : Instruction) (pcAfter : BitVec 32)
    (f : BitVec 32 → BitVec 32 → BitVec 32) : SimM Rest := do
  let rs ← readReg (gpr instr.rs)
  writeReg (gpr instr.rt) (f rs instr.extra)
  pure ⟨pcAfter, 0, 0⟩

/-- `LB`, `LBU`, `LH` and `LHU`: the part of the word that was read, with its sign or without. -/
def extendPart (value sign high : BitVec 32) (signed : Bool) : BitVec 32 :=
  if value &&& sign ≠ 0 ∧ signed then value ||| high else value &&& ~~~high

/-- `LH` and `LHU`. -/
def loadHalf (instr : Instruction) (pcAfter : BitVec 32) (signed : Bool) : SimM Rest := do
  let tmp ← effectiveAddr instr
  if tmp &&& 1 ≠ 0 then raiseException .AddressErrorException tmp
  else do
    let value ← readMem tmp 2
    pure ⟨pcAfter, instr.rt, extendPart value 0x8000 0xffff0000 signed⟩

/-- `SB`, `SH` and `SW`. -/
def store (instr : Instruction) (pcAfter : BitVec 32) (size : ℕ) : SimM Rest := do
  let addr ← effectiveAddr instr
  let rt ← readReg (gpr instr.rt)
  writeMem addr size rt
  pure ⟨pcAfter, 0, 0⟩

/-- The `switch` of `LWL` over the place in the word. -/
def mergeLeft (place old value : BitVec 32) : BitVec 32 :=
  if place = 0 then value
  else if place = 1 then old &&& 0xff ||| value <<< 8
  else if place = 2 then old &&& 0xffff ||| value <<< 16
  else old &&& 0xffffff ||| value <<< 24

/-- The `switch` of `LWR`. -/
def mergeRight (place old value : BitVec 32) : BitVec 32 :=
  if place = 0 then old &&& 0xffffff00 ||| (value.sshiftRight 24 &&& 0xff)
  else if place = 1 then old &&& 0xffff0000 ||| (value.sshiftRight 16 &&& 0xffff)
  else if place = 2 then old &&& 0xff000000 ||| (value.sshiftRight 8 &&& 0xffffff)
  else value

/-- The `switch` of `SWL`. -/
def spillLeft (place value rt : BitVec 32) : BitVec 32 :=
  if place = 0 then rt
  else if place = 1 then value &&& 0xff000000 ||| (rt.sshiftRight 8 &&& 0xffffff)
  else if place = 2 then value &&& 0xffff0000 ||| (rt.sshiftRight 16 &&& 0xffff)
  else value &&& 0xffffff00 ||| (rt.sshiftRight 24 &&& 0xff)

/-- The `switch` of `SWR`. -/
def spillRight (place value rt : BitVec 32) : BitVec 32 :=
  if place = 0 then value &&& 0xffffff ||| rt <<< 24
  else if place = 1 then value &&& 0xffff ||| rt <<< 16
  else if place = 2 then value &&& 0xff ||| rt <<< 8
  else rt

/-- `MULT` and `MULTU`. -/
def multiply (instr : Instruction) (pcAfter : BitVec 32) (signedArith : Bool) : SimM Rest := do
  let rs ← readReg (gpr instr.rs)
  let rt ← readReg (gpr instr.rt)
  let product := Mult.mult rs rt signedArith
  writeReg HiReg product.1
  writeReg LoReg product.2
  pure ⟨pcAfter, 0, 0⟩

/-- The quotient and remainder of `DIV`. -/
def divide (rs rt : BitVec 32) : SimM (BitVec 32 × BitVec 32) :=
  if rt = 0 then pure (0, 0)
  else if rs = SIGN_BIT ∧ rt = -1 then crash .divisionFault
  else pure (rs.sdiv rt, rs.srem rt)

/-- The `switch` of `OneInstruction`. -/
def execute (instr : Instruction) (pcAfter : BitVec 32) : SimM Rest :=
  match instr.opCode with
  | .ADD => do
    let rs ← readReg (gpr instr.rs)
    let rt ← readReg (gpr instr.rt)
    let sum := rs + rt
    if (rs ^^^ rt) &&& SIGN_BIT = 0 ∧ (rs ^^^ sum) &&& SIGN_BIT ≠ 0 then
      raiseException .OverflowException 0
    else do
      writeReg (gpr instr.rd) sum
      pure ⟨pcAfter, 0, 0⟩
  | .ADDI => do
    let rs ← readReg (gpr instr.rs)
    let sum := rs + instr.extra
    if (rs ^^^ instr.extra) &&& SIGN_BIT = 0 ∧ (instr.extra ^^^ sum) &&& SIGN_BIT ≠ 0 then
      raiseException .OverflowException 0
    else do
      writeReg (gpr instr.rt) sum
      pure ⟨pcAfter, 0, 0⟩
  | .ADDIU => aluImm instr pcAfter fun rs extra => rs + extra
  | .ADDU => alu instr pcAfter fun rs rt => rs + rt
  | .AND => alu instr pcAfter fun rs rt => rs &&& rt
  | .ANDI => aluImm instr pcAfter fun rs extra => rs &&& (extra &&& 0xffff)
  | .BEQ => do
    let rs ← readReg (gpr instr.rs)
    let rt ← readReg (gpr instr.rt)
    branchIf (rs == rt) pcAfter instr.extra
  | .BGEZAL => do
    link R31
    let rs ← readReg (gpr instr.rs)
    branchIf (rs &&& SIGN_BIT == 0) pcAfter instr.extra
  | .BGEZ => do
    let rs ← readReg (gpr instr.rs)
    branchIf (rs &&& SIGN_BIT == 0) pcAfter instr.extra
  | .BGTZ => do
    let rs ← readReg (gpr instr.rs)
    branchIf ((0#32).slt rs) pcAfter instr.extra
  | .BLEZ => do
    let rs ← readReg (gpr instr.rs)
    branchIf (rs.sle 0) pcAfter instr.extra
  | .BLTZAL => do
    link R31
    let rs ← readReg (gpr instr.rs)
    branchIf (rs &&& SIGN_BIT != 0) pcAfter instr.extra
  | .BLTZ => do
    let rs ← readReg (gpr instr.rs)
    branchIf (rs &&& SIGN_BIT != 0) pcAfter instr.extra
  | .BNE => do
    let rs ← readReg (gpr instr.rs)
    let rt ← readReg (gpr instr.rt)
    branchIf (rs != rt) pcAfter instr.extra
  | .DIV => do
    let rs ← readReg (gpr instr.rs)
    let rt ← readReg (gpr instr.rt)
    let q ← divide rs rt
    writeReg LoReg q.1
    writeReg HiReg q.2
    pure ⟨pcAfter, 0, 0⟩
  | .DIVU => do
    let rs ← readReg (gpr instr.rs)
    let rt ← readReg (gpr instr.rt)
    writeReg LoReg (if rt = 0 then 0 else rs / rt)
    writeReg HiReg (if rt = 0 then 0 else rs % rt)
    pure ⟨pcAfter, 0, 0⟩
  | .JAL => do
    link R31
    pure ⟨pcAfter &&& 0xf0000000 ||| IndexToAddr instr.extra, 0, 0⟩
  | .J => pure ⟨pcAfter &&& 0xf0000000 ||| IndexToAddr instr.extra, 0, 0⟩
  | .JALR => do
    link (gpr instr.rd)
    let rs ← readReg (gpr instr.rs)
    pure ⟨rs, 0, 0⟩
  | .JR => do
    let rs ← readReg (gpr instr.rs)
    pure ⟨rs, 0, 0⟩
  | .LB => do
    let tmp ← effectiveAddr instr
    let value ← readMem tmp 1
    pure ⟨pcAfter, instr.rt, extendPart value 0x80 0xffffff00 true⟩
  | .LBU => do
    let tmp ← effectiveAddr instr
    let value ← readMem tmp 1
    pure ⟨pcAfter, instr.rt, extendPart value 0x80 0xffffff00 false⟩
  | .LH => loadHalf instr pcAfter true
  | .LHU => loadHalf instr pcAfter false
  | .LUI => do
    writeReg (gpr instr.rt) (instr.extra <<< 16)
    pure ⟨pcAfter, 0, 0⟩
  | .LW => do
    let tmp ← effectiveAddr instr
    if tmp &&& 3 ≠ 0 then raiseException .AddressErrorException tmp
    else do
      let value ← readMem tmp 4
      pure ⟨pcAfter, instr.rt, value⟩
  | .LWL => do
    let tmp ← effectiveAddr instr
    assert (tmp &&& 3 = 0)
    let value ← readMem tmp 4
    let old ← loadedSoFar instr.rt
    pure ⟨pcAfter, instr.rt, mergeLeft (tmp &&& 3) old value⟩
  | .LWR => do
    let tmp ← effectiveAddr instr
    assert (tmp &&& 3 = 0)
    let value ← readMem tmp 4
    let old ← loadedSoFar instr.rt
    pure ⟨pcAfter, instr.rt, mergeRight (tmp &&& 3) old value⟩
  | .MFHI => do
    let hi ← readReg HiReg
    writeReg (gpr instr.rd) hi
    pure ⟨pcAfter, 0, 0⟩
  | .MFLO => do
    let lo ← readReg LoReg
    writeReg (gpr instr.rd) lo
    pure ⟨pcAfter, 0, 0⟩
  | .MTHI => do
    let rs ← readReg (gpr instr.rs)
    writeReg HiReg rs
    pure ⟨pcAfter, 0, 0⟩
  | .MTLO => do
    let rs ← readReg (gpr instr.rs)
    writeReg LoReg rs
    pure ⟨pcAfter, 0, 0⟩
  | .MULT => multiply instr pcAfter true
  | .MULTU => multiply instr pcAfter false
  | .NOR => alu instr pcAfter fun rs rt => ~~~(rs ||| rt)
  | .OR => alu instr pcAfter fun rs _ => rs ||| rs
  | .ORI => aluImm instr pcAfter fun rs extra => rs ||| (extra &&& 0xffff)
  | .SB => store instr pcAfter 1
  | .SH => store instr pcAfter 2
  | .SLL => alu instr pcAfter fun _ rt => rt <<< instr.extra
  | .SLLV => alu instr pcAfter fun rs rt => rt <<< (rs &&& 0x1f)
  | .SLT => alu instr pcAfter fun rs rt => if rs.slt rt then 1 else 0
  | .SLTI => aluImm instr pcAfter fun rs extra => if rs.slt extra then 1 else 0
  | .SLTIU => aluImm instr pcAfter fun rs extra => if rs.ult extra then 1 else 0
  | .SLTU => alu instr pcAfter fun rs rt => if rs.ult rt then 1 else 0
  | .SRA | .SRL => alu instr pcAfter fun _ rt => rt.sshiftRight instr.extra.toNat
  | .SRAV | .SRLV => alu instr pcAfter fun rs rt => rt.sshiftRight (rs &&& 0x1f).toNat
  | .SUB => do
    let rs ← readReg (gpr instr.rs)
    let rt ← readReg (gpr instr.rt)
    let diff := rs - rt
    if (rs ^^^ rt) &&& SIGN_BIT ≠ 0 ∧ (rs ^^^ diff) &&& SIGN_BIT ≠ 0 then
      raiseException .OverflowException 0
    else do
      writeReg (gpr instr.rd) diff
      pure ⟨pcAfter, 0, 0⟩
  | .SUBU => alu instr pcAfter fun rs rt => rs - rt
  | .SW => store instr pcAfter 4
  | .SWL => do
    let tmp ← effectiveAddr instr
    assert (tmp &&& 3 = 0)
    let value ← readMem (tmp &&& ~~~3) 4
    let rt ← readReg (gpr instr.rt)
    writeMem (tmp &&& ~~~3) 4 (spillLeft (tmp &&& 3) value rt)
    pure ⟨pcAfter, 0, 0⟩
  | .SWR => do
    let tmp ← effectiveAddr instr
    assert (tmp &&& 3 = 0)
    let value ← readMem (tmp &&& ~~~3) 4
    let rt ← readReg (gpr instr.rt)
    writeMem (tmp &&& ~~~3) 4 (spillRight (tmp &&& 3) value rt)
    pure ⟨pcAfter, 0, 0⟩
  | .SYSCALL => raiseException .SyscallException 0
  | .XOR => alu instr pcAfter fun rs rt => rs ^^^ rt
  | .XORI => aluImm instr pcAfter fun rs extra => rs ^^^ (extra &&& 0xffff)
  | .RES | .UNIMP => raiseException .IllegalInstrException 0
  | .RFE | .SPECIAL | .BCOND => crash .assertFailed

/-- `OneInstruction` up to the end of its `switch`. With the debug flag `m` the instruction is
printed. -/
def fetchExecute (debug : Bool) : SimM Rest := do
  let pc ← readReg PCReg
  let raw ← readMem pc 4
  let instr := decode raw
  assert (debug = true → instr.opCode.number ≤ OpCode.MaxOpcode)
  let nextPC ← readReg NextPCReg
  execute instr (nextPC + 4)

/-- "Now we have successfully executed the instruction": the delayed load, and the program
counters. -/
def complete (rest : Rest) : SimM Unit := do
  delayedLoad (BitVec.ofNat 32 rest.nextLoadReg) rest.nextLoadValue
  let pc ← readReg PCReg
  writeReg PrevPCReg pc
  let nextPC ← readReg NextPCReg
  writeReg PCReg nextPC
  writeReg NextPCReg rest.pcAfter

/-- `Machine::OneInstruction`. -/
def oneInstruction (debug : Bool) : SimM Unit := do
  let rest ← fetchExecute debug
  complete rest

end Machine

end Nachos.Mips
