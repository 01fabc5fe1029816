import Nachos.Lib.TwoRuns
import Nachos.Machine.Arithmetic

/-!
# Interrupts in the load delay slot

`CheckIfDue` and `RaiseException` finish a load that is under way. The instruction in its delay
slot does not notice, unless it reads the register that is loaded, or writes it other than by a
load. `LWL` and `LWR`, which look for the load they are to go on with, do not notice either.
-/
namespace Nachos.Mips

/-- The general registers that the simulator reads for an instruction. `LWL` and `LWR` take the
word they load into from the load under way. -/
def Instruction.reads (instr : Instruction) : List (Fin 32) :=
  match instr.opCode with
  | .ADD | .ADDU | .AND | .BEQ | .BNE | .DIV | .DIVU | .MULT | .MULTU | .NOR | .SLLV | .SLT | .SLTU
  | .SRAV | .SRLV | .SUB | .SUBU | .XOR | .SB | .SH | .SW | .SWL | .SWR => [instr.rs, instr.rt]
  | .ADDI | .ADDIU | .ANDI | .BGEZ | .BGEZAL | .BGTZ | .BLEZ | .BLTZ | .BLTZAL | .JALR | .JR | .LB
  | .LBU | .LH | .LHU | .LW | .LWL | .LWR | .MTHI | .MTLO | .OR | .ORI | .SLTI | .SLTIU | .XORI =>
    [instr.rs]
  | .SLL | .SRA | .SRL => [instr.rt]
  | .J | .JAL | .LUI | .MFHI | .MFLO | .RFE | .SYSCALL | .UNIMP | .RES | .SPECIAL | .BCOND => []

/-- The general registers that it writes, but for the target of a load. -/
def Instruction.writes (instr : Instruction) : List (Fin 32) :=
  match instr.opCode with
  | .ADD | .ADDU | .AND | .JALR | .MFHI | .MFLO | .NOR | .OR | .SLL | .SLLV | .SLT | .SLTU | .SRA
  | .SRAV | .SRL | .SRLV | .SUB | .SUBU | .XOR => [instr.rd]
  | .ADDI | .ADDIU | .ANDI | .LUI | .ORI | .SLTI | .SLTIU | .XORI => [instr.rt]
  | .BGEZAL | .BLTZAL | .JAL => [Machine.r31]
  | _ => []

namespace Machine

open Registers
open TrapM (Respects)
open TrapM.Result (Same)

variable {m m' t : Machine} {r : Fin 32} {zero : Prop} {debug : Bool} {instr : Instruction}
  {pcAfter : BitVec 32}

/-- The load into `r` has been done, and `r0` is left as it is. -/
def flush (r : Fin 32) (m : Machine) : Machine :=
  { m with
    registers := ((m.registers.writeRegister (gpr r) (m.registers LoadValueReg)).writeRegister
      LoadReg 0).writeRegister LoadValueReg 0 }

/-- `t` is `m` without the load into `r` that is under way there. As long as nothing has been
written `r0` is zero. -/
structure Flushed (r : Fin 32) (zero : Prop) (m t : Machine) : Prop where
  eq : t = m.flush r
  load : m.registers LoadReg = BitVec.ofNat 32 r
  zero : zero → m.registers 0 = 0

theorem flush_target : (m.flush r).registers (gpr r) = m.registers LoadValueReg := by
  have h1 : gpr r ≠ LoadReg := gpr_ne (by decide)
  have h2 : gpr r ≠ LoadValueReg := gpr_ne (by decide)
  simp [flush, writeRegister, h1, h2]

theorem flush_other {i : Fin NumTotalRegs} (hi : i ≠ gpr r) (hload : i ≠ LoadReg)
    (hvalue : i ≠ LoadValueReg) : (m.flush r).registers i = m.registers i := by
  simp [flush, writeRegister, hi, hload, hvalue]

theorem flush_loadReg : (m.flush r).registers LoadReg = 0 := by
  have h : LoadReg ≠ LoadValueReg := by decide
  simp [flush, writeRegister, h]

theorem flush_loadValueReg : (m.flush r).registers LoadValueReg = 0 := by
  simp [flush, writeRegister]

/-- `DelayedLoad` finishes the load, if that has not been done before. -/
theorem delayedLoad_flush (hload : m.registers LoadReg = BitVec.ofNat 32 r) (n v : BitVec 32) :
    (m.flush r).registers.delayedLoad n v = m.registers.delayedLoad n v := by
  have hr : (m.registers LoadReg).toNat = r := by
    have := r.isLt
    rw [hload, Word.toNat_ofNat (by omega)]
  funext i
  by_cases hzero : i = 0
  · rw [hzero, delayedLoad_zero, delayedLoad_zero]
  by_cases hi : i = LoadReg
  · rw [hi, delayedLoad_loadReg, delayedLoad_loadReg]
  by_cases hv : i = LoadValueReg
  · have h1 : LoadValueReg ≠ 0 := by decide
    simp [hv, Registers.delayedLoad, writeRegister, h1]
  have hne : ¬((m.flush r).registers LoadReg).toNat = i := by
    rw [flush_loadReg]
    intro h
    exact hzero (Fin.ext h.symm)
  rw [delayedLoad_apply hzero hi hv, delayedLoad_apply hzero hi hv, if_neg hne]
  by_cases htarget : i = gpr r
  · subst htarget
    rw [flush_target]
    exact (if_pos hr).symm
  · have hother : ¬(m.registers LoadReg).toNat = i := by
      rw [hr]
      intro h
      exact htarget (Fin.ext h.symm)
    rw [if_neg hother, flush_other htarget hi hv]

theorem flush_writeRegister {i : Fin NumTotalRegs} (hi : i ≠ gpr r) (hload : i ≠ LoadReg)
    (hvalue : i ≠ LoadValueReg) (v : BitVec 32) :
    { m with registers := m.registers.writeRegister i v }.flush r =
      { m.flush r with registers := (m.flush r).registers.writeRegister i v } := by
  have hv : Function.update m.registers i v LoadValueReg = m.registers LoadValueReg :=
    Function.update_of_ne hvalue.symm _ _
  simp only [flush, writeRegister, hv]
  rw [Function.update_comm hi, Function.update_comm hload, Function.update_comm hvalue]

theorem flush_trapRegisters (hload : m.registers LoadReg = BitVec.ofNat 32 r) (a : BitVec 32) :
    (m.flush r).trapRegisters a = m.trapRegisters a := by
  have hbad : m.registers.writeRegister BadVAddrReg a LoadReg = m.registers LoadReg :=
    Function.update_of_ne (by decide) _ _
  have hwrite := flush_writeRegister (m := m) (i := BadVAddrReg) (gpr_ne (i := r) (by decide)).symm
    (by decide) (by decide) a
  rw [trapRegisters, trapRegisters, ← delayedLoad_flush (m := { m with
    registers := m.registers.writeRegister BadVAddrReg a }) (hbad.trans hload), hwrite]

/-! ## Commands -/

theorem respects_readReg {i : Fin NumTotalRegs} (hi : i ≠ gpr r) (hload : i ≠ LoadReg)
    (hvalue : i ≠ LoadValueReg) : Respects (Flushed r zero) (readReg i) := by
  apply TrapM.respects_gets
  rintro m t ⟨rfl, -, -⟩
  exact flush_other hi hload hvalue

theorem respects_readGpr (zero : Prop) {i : Fin 32} (hi : i ≠ r) :
    Respects (Flushed r zero) (readReg (gpr i)) :=
  respects_readReg (fun h => hi (gpr_inj.mp h)) (gpr_ne (by decide)) (gpr_ne (by decide))

instance : Respects (Flushed r zero) (readReg PCReg) :=
  respects_readReg (gpr_ne (by decide)).symm (by decide) (by decide)

instance : Respects (Flushed r zero) (readReg NextPCReg) :=
  respects_readReg (gpr_ne (by decide)).symm (by decide) (by decide)

instance : Respects (Flushed r zero) (readReg HiReg) :=
  respects_readReg (gpr_ne (by decide)).symm (by decide) (by decide)

instance : Respects (Flushed r zero) (readReg LoReg) :=
  respects_readReg (gpr_ne (by decide)).symm (by decide) (by decide)

/-- What is written may be `r0`, so no more is said of it. -/
theorem respects_writeReg {i : Fin NumTotalRegs} (hi : i ≠ gpr r) (hload : i ≠ LoadReg)
    (hvalue : i ≠ LoadValueReg) (v : BitVec 32) : Respects (Flushed r False) (writeReg i v) := by
  apply TrapM.respects_update
  rintro m t ⟨rfl, hm, -⟩
  exact ⟨(flush_writeRegister hi hload hvalue v).symm,
    (Function.update_of_ne hload.symm _ _).trans hm, False.elim⟩

theorem respects_writeGpr {i : Fin 32} (hi : i ≠ r) (v : BitVec 32) :
    Respects (Flushed r False) (writeReg (gpr i) v) :=
  respects_writeReg (fun h => hi (gpr_inj.mp h)) (gpr_ne (by decide)) (gpr_ne (by decide)) v

instance (v : BitVec 32) : Respects (Flushed r False) (writeReg HiReg v) :=
  respects_writeReg (gpr_ne (by decide)).symm (by decide) (by decide) v

instance (v : BitVec 32) : Respects (Flushed r False) (writeReg LoReg v) :=
  respects_writeReg (gpr_ne (by decide)).symm (by decide) (by decide) v

/-- The handler finds the same registers. -/
instance {α : Type} (e : ExceptionType) (a : BitVec 32) :
    Respects (Flushed r zero) (raiseException e a : SimM α) := ⟨by
  rintro m t ⟨rfl, hm, -⟩
  have hlt : (m.registers LoadReg).toNat < NumTotalRegs := by
    have := r.isLt
    rw [hm, Word.toNat_ofNat (by omega), NumTotalRegs]
    omega
  have hlt' : ((m.flush r).registers LoadReg).toNat < NumTotalRegs := by
    rw [flush_loadReg]
    decide
  rw [raiseException_apply, raiseException_apply, if_pos hlt, if_pos hlt', flush_trapRegisters hm]
  exact .trapped e _⟩

instance (addr : BitVec 32) (size : ℕ) (writing : Bool) :
    Respects (Flushed r zero) (translate addr size writing) := ⟨by
  intro m t h
  obtain ⟨rfl, hm, hzero⟩ := h
  have hmemory : (m.flush r).memory = m.memory := rfl
  unfold translate
  rw [hmemory]
  split
  · exact Respects.same m _ ⟨rfl, hm, hzero⟩
  · split
    · exact .done _ ⟨rfl, hm, hzero⟩
    · exact .crashed _⟩

instance (p : Prop) [Decidable p] : Respects (Flushed r zero) (assert p) := by
  unfold assert
  infer_instance

instance (addr : BitVec 32) (size : ℕ) : Respects (Flushed r zero) (readMem addr size) := by
  have : Respects (Flushed r zero) (TrapM.gets fun m => m.memory.mainMemory : SimM _) :=
    TrapM.respects_gets fun m t h => h.eq ▸ rfl
  unfold readMem
  infer_instance

instance (addr value : BitVec 32) (size : ℕ) :
    Respects (Flushed r zero) (writeMem addr size value) := by
  have : ∀ f : UserMemory → UserMemory,
      Respects (Flushed r zero) (TrapM.update fun m => { m with memory := f m.memory } : SimM _) :=
    fun f => TrapM.respects_update fun m t h => ⟨h.eq ▸ rfl, h.load, h.zero⟩
  have := fun p => this fun u =>
    { u with mainMemory := Bytes.store u.mainMemory p ((Bytes.ofWord value).take size) }
  unfold writeMem
  infer_instance

/-- What `LWL` and `LWR` go on with is the load under way, or what it has left. -/
theorem respects_loadedSoFar (hr : r ≠ 0) (rt : Fin 32) :
    Respects (Flushed r True) (loadedSoFar rt) := ⟨by
  intro m t h
  obtain ⟨rfl, hm, hzero⟩ := h
  have happly : ∀ m : Machine, loadedSoFar rt m = .done (if m.registers LoadReg =
      BitVec.ofNat 32 rt then m.registers LoadValueReg else m.registers (gpr rt)) m := by
    intro m
    show (if _ then readReg LoadValueReg else readReg (gpr rt) : SimM _) m = _
    split <;> rfl
  have hsame : ∀ i j : Fin 32, BitVec.ofNat 32 i = BitVec.ofNat 32 j ↔ i = j := by
    intro i j
    rw [Word.ofNat_eq_iff (by omega) (by omega), Fin.val_inj]
  have hvalue : (if (m.flush r).registers LoadReg = BitVec.ofNat 32 rt then
      (m.flush r).registers LoadValueReg else (m.flush r).registers (gpr rt)) =
      if m.registers LoadReg = BitVec.ofNat 32 rt then m.registers LoadValueReg
      else m.registers (gpr rt) := by
    have hnone : (m.flush r).registers LoadReg = BitVec.ofNat 32 (0 : Fin 32) := flush_loadReg
    simp only [hnone, hm, hsame, flush_loadValueReg]
    by_cases htarget : rt = r
    · subst htarget
      rw [if_neg hr.symm, if_pos rfl, flush_target]
    · have hother : (m.flush r).registers (gpr rt) = m.registers (gpr rt) :=
        flush_other (fun h => htarget (gpr_inj.mp h)) (gpr_ne (by decide)) (gpr_ne (by decide))
      rw [hother, if_neg (Ne.symm htarget)]
      by_cases h0 : 0 = rt
      · subst h0
        rw [if_pos rfl]
        exact (hzero trivial).symm
      · rw [if_neg h0]
  rw [happly, happly, hvalue]
  exact .done _ ⟨rfl, hm, hzero⟩⟩

instance (rs rt : BitVec 32) : Respects (Flushed r zero) (divide rs rt) := by
  unfold divide
  infer_instance

instance (taken : Bool) (extra : BitVec 32) :
    Respects (Flushed r zero) (branchIf taken pcAfter extra) := by
  unfold branchIf
  infer_instance

theorem respects_effectiveAddr (zero : Prop) (hrs : r ≠ instr.rs) :
    Respects (Flushed r zero) (effectiveAddr instr) := by
  have := respects_readGpr zero hrs.symm
  unfold effectiveAddr
  infer_instance

/-- An operand that the operation does not look at may be the register of the load. -/
theorem respects_alu {f : BitVec 32 → BitVec 32 → BitVec 32}
    (hrs : r ≠ instr.rs ∨ ∀ x x' y, f x y = f x' y) (hrt : r ≠ instr.rt ∨ ∀ x y y', f x y = f x y')
    (hrd : r ≠ instr.rd) : Respects (Flushed r False) (alu instr pcAfter f) := ⟨by
  intro m t h
  obtain ⟨rfl, hm, hzero⟩ := h
  have hvalue : f ((m.flush r).registers (gpr instr.rs)) ((m.flush r).registers (gpr instr.rt)) =
      f (m.registers (gpr instr.rs)) (m.registers (gpr instr.rt)) := by
    have hother : ∀ i : Fin 32, r ≠ i → (m.flush r).registers (gpr i) = m.registers (gpr i) :=
      fun i hi => flush_other (fun h => hi (gpr_inj.mp h).symm) (gpr_ne (by decide))
        (gpr_ne (by decide))
    rcases hrs with hrs | hrs <;> rcases hrt with hrt | hrt
    · rw [hother _ hrs, hother _ hrt]
    · rw [hother _ hrs, hrt _ _ (m.registers (gpr instr.rt))]
    · rw [hother _ hrt, hrs _ (m.registers (gpr instr.rs))]
    · rw [hrs _ (m.registers (gpr instr.rs)), hrt _ _ (m.registers (gpr instr.rt))]
  have hrun := (respects_writeGpr hrd.symm
    (f (m.registers (gpr instr.rs)) (m.registers (gpr instr.rt)))).same m _ ⟨rfl, hm, False.elim⟩
  show Same _ (TrapM.Result.done _ _) (TrapM.Result.done _
    ((m.flush r).wrote instr.rd (f ((m.flush r).registers _) ((m.flush r).registers _))))
  rw [hvalue]
  cases hrun with
  | done _ h => exact .done _ h⟩

/-- `registers[rt] = f(registers[rs], extra)`. -/
theorem respects_aluImm {f : BitVec 32 → BitVec 32 → BitVec 32} (hrs : r ≠ instr.rs)
    (hrt : r ≠ instr.rt) : Respects (Flushed r False) (aluImm instr pcAfter f) := by
  have := respects_readGpr False hrs.symm
  have := respects_writeGpr (r := r) hrt.symm
  unfold aluImm
  infer_instance

theorem respects_link {i : Fin 32} (hi : r ≠ i) : Respects (Flushed r False) (link (gpr i)) := by
  have := respects_writeGpr hi.symm
  unfold link
  infer_instance

theorem respects_loadHalf (hrs : r ≠ instr.rs) (signed : Bool) :
    Respects (Flushed r zero) (loadHalf instr pcAfter signed) := by
  have := respects_effectiveAddr zero hrs
  unfold loadHalf
  infer_instance

theorem respects_store (hrs : r ≠ instr.rs) (hrt : r ≠ instr.rt) (size : ℕ) :
    Respects (Flushed r zero) (store instr pcAfter size) := by
  have := respects_effectiveAddr zero hrs
  have := respects_readGpr zero hrt.symm
  unfold store
  infer_instance

theorem respects_multiply (hrs : r ≠ instr.rs) (hrt : r ≠ instr.rt) (signedArith : Bool) :
    Respects (Flushed r False) (multiply instr pcAfter signedArith) := by
  have := respects_readGpr False hrs.symm
  have := respects_readGpr False hrt.symm
  unfold multiply
  infer_instance

/-! ## Instructions -/

theorem Flushed.forget (h : Flushed r zero m t) : Flushed r False m t := ⟨h.eq, h.load, False.elim⟩

/-- Instructions that begin with `r0` as it should be. -/
theorem same_of_respects {α : Type} {c : SimM α} (hc : Respects (Flushed r zero) c)
    (h : Flushed r zero m t) : Same (Flushed r False) (c m) (c t) :=
  (hc.same m t h).imp fun _ _ h => h.forget

theorem same_execute (hr : r ≠ 0) (hreads : r ∉ instr.reads) (hwrites : r ∉ instr.writes)
    (h : Flushed r True m t) :
    Same (Flushed r False) (execute instr pcAfter m) (execute instr pcAfter t) := by
  cases hcode : instr.opCode <;>
    simp only [Instruction.reads, Instruction.writes, hcode, List.mem_cons, List.not_mem_nil,
      or_false, not_or, not_false_eq_true] at hreads hwrites <;>
    simp only [execute, hcode]
  case ADDU | AND | NOR | SLLV | SLT | SLTU | SRAV | SRLV | SUBU | XOR =>
    exact same_of_respects (respects_alu (.inl hreads.1) (.inl hreads.2) hwrites) h.forget
  case SLL | SRA | SRL =>
    exact same_of_respects (respects_alu (.inr fun _ _ _ => rfl) (.inl hreads) hwrites) h.forget
  case OR =>
    exact same_of_respects (respects_alu (.inl hreads) (.inr fun _ _ _ => rfl) hwrites) h.forget
  case ADDIU | ANDI | ORI | SLTI | SLTIU | XORI =>
    exact same_of_respects (respects_aluImm hreads hwrites) h.forget
  case LWL | LWR =>
    have := respects_effectiveAddr True hreads
    have := respects_loadedSoFar hr instr.rt
    exact same_of_respects inferInstance h
  case LB | LBU | LW =>
    have := respects_effectiveAddr True hreads
    exact same_of_respects inferInstance h
  case LH | LHU => exact same_of_respects (respects_loadHalf hreads _) h
  case SB | SH | SW => exact same_of_respects (respects_store hreads.1 hreads.2 _) h
  case SWL | SWR =>
    have := respects_effectiveAddr True hreads.1
    have := respects_readGpr True (Ne.symm hreads.2)
    exact same_of_respects inferInstance h
  case MULT | MULTU => exact same_of_respects (respects_multiply hreads.1 hreads.2 _) h.forget
  case ADD | SUB =>
    have := respects_readGpr False (Ne.symm hreads.1)
    have := respects_readGpr False (Ne.symm hreads.2)
    have := respects_writeGpr (Ne.symm hwrites)
    exact same_of_respects inferInstance h.forget
  case ADDI =>
    have := respects_readGpr False (Ne.symm hreads)
    have := respects_writeGpr (Ne.symm hwrites)
    exact same_of_respects inferInstance h.forget
  case BEQ | BNE | DIV | DIVU =>
    have := respects_readGpr False (Ne.symm hreads.1)
    have := respects_readGpr False (Ne.symm hreads.2)
    exact same_of_respects inferInstance h.forget
  case BGEZ | BGTZ | BLEZ | BLTZ | JR | MTHI | MTLO =>
    have := respects_readGpr False (Ne.symm hreads)
    exact same_of_respects inferInstance h.forget
  case BGEZAL | BLTZAL =>
    have := respects_readGpr False (Ne.symm hreads)
    have : Respects (Flushed r False) (link R31) := respects_link hwrites
    exact same_of_respects inferInstance h.forget
  case JAL =>
    have : Respects (Flushed r False) (link R31) := respects_link hwrites
    exact same_of_respects inferInstance h.forget
  case JALR =>
    have := respects_readGpr False (Ne.symm hreads)
    have := respects_link hwrites
    exact same_of_respects inferInstance h.forget
  case LUI | MFHI | MFLO =>
    have := respects_writeGpr (Ne.symm hwrites)
    exact same_of_respects inferInstance h.forget
  all_goals exact same_of_respects inferInstance h

theorem same_fetchExecute (debug : Bool) (hr : r ≠ 0)
    (hinstr : ∀ instr ∈ m.fetched, r ∉ instr.reads ∧ r ∉ instr.writes) (h : Flushed r True m t) :
    Same (Flushed r False) (fetchExecute debug m) (fetchExecute debug t) := by
  apply TrapM.same_bind (Respects.same m t h)
  rintro pc m₁ t₁ hpc h₁
  cases hpc
  apply TrapM.same_bind (Respects.same m t₁ h₁)
  rintro raw m₂ t₂ hread h₂
  obtain ⟨hreads, hwrites⟩ := hinstr (decode raw) (fetched_of_done hread)
  apply TrapM.same_bind (Respects.same m₂ t₂ h₂)
  rintro _ m₃ t₃ _ h₃
  apply TrapM.same_bind (Respects.same m₃ t₃ h₃)
  rintro nextPC m₄ t₄ _ h₄
  exact same_execute hr hreads hwrites h₄

/-- When the instruction is completed, so is the load. -/
theorem complete_flush (hload : m.registers LoadReg = BitVec.ofNat 32 r) (rest : Rest) :
    complete rest (m.flush r) = complete rest m := by
  have hvalid : LoadRegValid m := by
    have := r.isLt
    rw [LoadRegValid, hload, Word.toNat_ofNat (by omega), NumTotalRegs]
    omega
  have hvalid' : LoadRegValid (m.flush r) := by
    rw [LoadRegValid, flush_loadReg]
    decide
  rw [complete_of_valid hvalid, complete_of_valid hvalid', completed, completed,
    delayedLoad_flush hload]
  rfl

theorem settle_eq_flush (hzero : m.registers 0 = 0)
    (hload : m.registers LoadReg = BitVec.ofNat 32 r) (hr : r ≠ 0) :
    { m with registers := m.registers.settle } = m.flush r := by
  have hsettle : m.registers.settle = (m.flush r).registers := by
    rw [settle, ← delayedLoad_flush hload]
    refine settle_eq_self ?_ flush_loadReg flush_loadValueReg
    rw [flush_other (gpr_ne_zero hr).symm (by decide) (by decide)]
    exact hzero
  rw [hsettle]
  rfl

/-- Whether the load into `r` has been done before an instruction that has no business with `r` or
is done at its end makes no difference to registers, memory and outcome. -/
theorem oneInstruction_settle (debug : Bool) (hzero : m.registers 0 = 0)
    (hload : m.registers LoadReg = BitVec.ofNat 32 r) (hr : r ≠ 0)
    (hinstr : ∀ instr ∈ m.fetched, r ∉ instr.reads ∧ r ∉ instr.writes) :
    oneInstruction debug { m with registers := m.registers.settle } = oneInstruction debug m := by
  rw [settle_eq_flush hzero hload hr]
  have hsame := same_fetchExecute debug hr hinstr ⟨rfl, hload, fun _ => hzero⟩
  rw [oneInstruction, TrapM.bind_apply, TrapM.bind_apply]
  generalize fetchExecute debug m = x at hsame
  generalize fetchExecute debug (m.flush r) = y at hsame
  cases hsame with
  | done rest h =>
    rw [h.eq]
    exact complete_flush h.load rest
  | trapped e s => rfl
  | crashed why => rfl

/-! ## Programs -/

/-- A load is under way, and the instruction in its delay slot has no business with it. -/
def InDelaySlot (m : Machine) : Prop :=
  ∃ r : Fin 32, r ≠ r0 ∧ m.registers LoadReg = BitVec.ofNat 32 r ∧
    ∀ instr ∈ m.fetched, r ∉ instr.reads ∧ r ∉ instr.writes

/-- What an interrupt does to the machine, if there is one. -/
def flushIf (interrupt : Bool) : SimM Unit := if interrupt then delayedLoad 0 0 else pure ()

/-- As many instructions as the list is long. Where it has `true` an interrupt comes before the
instruction. -/
def interrupted (debug : Bool) : List Bool → SimM Unit
  | [] => pure ()
  | interrupt :: rest => do
    flushIf interrupt
    oneInstruction debug
    interrupted debug rest

/-- Interrupts come only in such delay slots. -/
def Undisturbed (debug : Bool) : List Bool → Machine → Prop
  | [], _ => True
  | interrupt :: rest, m => (interrupt = true → InDelaySlot m) ∧
    ∀ m', oneInstruction debug m = .done () m' → Undisturbed debug rest m'

theorem InDelaySlot.oneInstruction (h : InDelaySlot m) (hm : m.registers.Valid) :
    oneInstruction debug { m with registers := m.registers.settle } = oneInstruction debug m := by
  obtain ⟨r, hr, hload, hinstr⟩ := h
  exact oneInstruction_settle debug hm.zero hload hr hinstr

theorem interrupted_cons (interrupt : Bool) (rest : List Bool) (hm : m.registers.Valid)
    (h : interrupt = true → InDelaySlot m) : interrupted debug (interrupt :: rest) m =
      (oneInstruction debug >>= fun _ => interrupted debug rest) m := by
  rw [interrupted]
  cases interrupt with
  | false => rfl
  | true =>
    have hflush : flushIf true m = .done () { m with registers := m.registers.settle } :=
      delayedLoad_of_valid (loadRegValid_of_valid hm) 0 0
    rw [TrapM.bind_of_done hflush, TrapM.bind_apply, (h rfl).oneInstruction hm, ← TrapM.bind_apply]

theorem interrupted_eq (interrupts : List Bool) (hm : m.registers.Valid)
    (h : Undisturbed debug interrupts m) : interrupted debug interrupts m =
      interrupted debug (interrupts.map fun _ => false) m := by
  induction interrupts generalizing m with
  | nil => rfl
  | cons interrupt rest ih =>
    obtain ⟨hslot, hrest⟩ := h
    rw [interrupted_cons interrupt rest hm hslot, List.map_cons,
      interrupted_cons false _ hm fun hf => absurd hf Bool.false_ne_true]
    cases hrun : oneInstruction debug m with
    | done _ m' =>
      have hvalid : m'.registers.Valid :=
        Executes.valid ⟨debug, m.memory, m', rfl, .inl hrun⟩
      rw [TrapM.bind_of_done hrun, TrapM.bind_of_done hrun]
      exact ih hvalid (hrest m' hrun)
    | trapped e m' => rw [TrapM.bind_of_trapped hrun, TrapM.bind_of_trapped hrun]
    | crashed why => rw [TrapM.bind_of_crashed hrun, TrapM.bind_of_crashed hrun]

/-- The flush that an interrupt brings is not noticed by an instruction that has no business with
the register of the load, and where such interrupts come makes no difference to a program. -/
theorem interrupts_transparent (debug : Bool) (hm : m.registers.Valid) :
    (∀ r : Fin 32, r ≠ 0 → m.registers LoadReg = BitVec.ofNat 32 r →
      (∀ instr ∈ m.fetched, r ∉ instr.reads ∧ r ∉ instr.writes) →
      oneInstruction debug { m with registers := m.registers.settle } = oneInstruction debug m) ∧
    ∀ interrupts, Undisturbed debug interrupts m → interrupted debug interrupts m =
      interrupted debug (interrupts.map fun _ => false) m :=
  ⟨fun _ hr hload hinstr => oneInstruction_settle debug hm.zero hload hr hinstr,
    fun interrupts h => interrupted_eq interrupts hm h⟩

/-- `LWR r2,3(r1)` while `LWL` loads into `r2`. -/
theorem interrupts_transparent_lwr :
    let m := sample 0x98220000 fun i =>
      if i = LoadReg then 2 else if i = LoadValueReg then 0x12345678 else 0
    oneInstruction false { m with registers := m.registers.settle } = oneInstruction false m := by
  refine (interrupts_transparent false (by decide)).1 2 (by decide) rfl ?_
  intro instr hinstr
  cases hinstr
  decide

end Machine

end Nachos.Mips
