import Nachos.Machine.LoadDelay

/-!
# Exceptions are precise

When `RaiseException` is called, an instruction has written no register and no byte of memory:
whatever can fail in it comes before its first write. The handler finds the registers from before
the instruction, with the delayed load applied and the address of the failure in `BadVAddrReg`.
-/
namespace Nachos

namespace UserMemory

variable {u u' : UserMemory} {addr : BitVec 32} {size : ℕ} {writing : Bool}

theorem Touched.refl (u : UserMemory) : Touched u u := ⟨.refl u, rfl⟩

theorem Touched.trans {u'' : UserMemory} (h : Touched u u') (h' : Touched u' u'') :
    Touched u u'' :=
  ⟨h.toSameMap.trans h'.toSameMap, h'.main.trans h.main⟩

/-- `Translate` does not look at the use and dirty bits. -/
theorem SameMap.translate_fst (h : SameMap u u') :
    (Nachos.translate u'.pageTable u'.pageTableSize addr size writing).map Prod.fst =
      (Nachos.translate u.pageTable u.pageTableSize addr size writing).map Prod.fst := by
  obtain ⟨hframe, hvalid, hreadOnly⟩ := h.entry (addr.toNat / PageSize)
  simp only [Nachos.translate, h.size, hframe, hvalid, hreadOnly]
  split_ifs <;> rfl

end UserMemory

namespace Mips

/-- The address that is in `BadVAddrReg` when an instruction fails. -/
def Instruction.faultAddress (instr : Instruction) (r : Registers) : BitVec 32 :=
  match instr.opCode with
  | .LB | .LBU | .LH | .LHU | .LW | .LWL | .LWR | .SB | .SH | .SW | .SWL | .SWR =>
    r (Machine.gpr instr.rs) + instr.extra
  | _ => 0

namespace Machine

open Registers
open TrapM (Bound)
open UserMemory (Touched SameMap)

variable {m m₁ m' : Machine} {instr : Instruction} {pcAfter a : BitVec 32} {size : ℕ}
  {writing debug : Bool} {e : ExceptionType}

/-- Where the failure is: at the instruction itself, if it cannot be fetched. -/
def faultAddress (m : Machine) : BitVec 32 :=
  match m.fetched with
  | some instr => instr.faultAddress m.registers
  | none => m.registers PCReg

/-- `m'` is `m` at the call of the exception handler: nothing but the work of `RaiseException`
has been done, and bits of page table entries may be set. -/
structure Precise (m : Machine) (bad : BitVec 32) (m' : Machine) : Prop where
  registers : m'.registers = m.trapRegisters bad
  memory : Touched m.memory m'.memory

/-- The command raises no exception that is not precise. -/
def Faults {α : Type} (bad : BitVec 32) (c : SimM α) (m : Machine) : Prop :=
  ∀ e m', c m = .trapped e m' → m.Precise bad m'

/-! ## Commands that raise no exception -/

abbrev NoTrap {α : Type} (c : SimM α) : Prop := Bound (fun _ => True) (fun _ => False) True c

theorem NoTrap.ne {α : Type} {c : SimM α} (h : NoTrap c) : c m ≠ .trapped e m' := by
  intro heq
  have := h.meets m trivial
  rw [heq] at this
  exact this

theorem NoTrap.faults {α : Type} {c : SimM α} (h : NoTrap c) (bad : BitVec 32) :
    Faults bad c m := fun _ _ heq => absurd heq h.ne

instance (i : Fin NumTotalRegs) : NoTrap (readReg i) := inferInstanceAs (NoTrap (TrapM.gets _))

instance (i : Fin NumTotalRegs) (v : BitVec 32) : NoTrap (writeReg i v) :=
  TrapM.bound_update fun _ _ => trivial

instance {α : Type} (why : Crash) : NoTrap (TrapM.crash why : SimM α) := ⟨fun _ _ => trivial⟩

instance (p : Prop) [Decidable p] : NoTrap (assert p) := by
  unfold assert
  infer_instance

instance (n v : BitVec 32) : NoTrap (delayedLoad n v) := ⟨by
  intro m _
  unfold delayedLoad
  split
  · trivial
  · trivial⟩

instance (rs rt : BitVec 32) : NoTrap (divide rs rt) := by
  unfold divide
  infer_instance

instance (f : BitVec 32 → BitVec 32 → BitVec 32) : NoTrap (alu instr pcAfter f) := by
  unfold alu
  infer_instance

instance (f : BitVec 32 → BitVec 32 → BitVec 32) : NoTrap (aluImm instr pcAfter f) := by
  unfold aluImm
  infer_instance

instance (taken : Bool) (extra : BitVec 32) : NoTrap (branchIf taken pcAfter extra) := by
  unfold branchIf
  infer_instance

instance (i : Fin NumTotalRegs) : NoTrap (link i) := by
  unfold link
  infer_instance

instance (signedArith : Bool) : NoTrap (multiply instr pcAfter signedArith) := by
  unfold multiply
  infer_instance

instance (rt : Fin 32) : NoTrap (loadedSoFar rt) := by
  unfold loadedSoFar
  infer_instance

instance (rest : Rest) : NoTrap (complete rest) := by
  unfold complete
  infer_instance

/-! ## The commands that can raise one -/

theorem faults_raiseException {α : Type} (e : ExceptionType) (bad : BitVec 32) :
    Faults bad (raiseException e bad : SimM α) m := by
  intro e' m' h
  rw [raiseException_apply] at h
  split at h
  · cases h
    exact ⟨rfl, .refl _⟩
  · cases h

/-- What comes before a failure may only set bits of page table entries. -/
theorem Faults.of_touched {α : Type} {c : SimM α} {bad : BitVec 32} (h : Faults bad c m₁)
    (hreg : m₁.registers = m.registers) (hmem : Touched m.memory m₁.memory) {e : ExceptionType}
    (heq : c m₁ = .trapped e m') : m.Precise bad m' := by
  obtain ⟨hr, ht⟩ := h e m' heq
  refine ⟨?_, hmem.trans ht⟩
  rw [hr, trapRegisters, trapRegisters, hreg]

theorem faults_bind {α β : Type} {c : SimM α} {f : α → SimM β} {bad : BitVec 32}
    (hc : Faults bad c m)
    (hf : ∀ x m₁, c m = .done x m₁ → ∀ e m', f x m₁ = .trapped e m' → m.Precise bad m') :
    Faults bad (c >>= f) m := by
  intro e m' h
  cases hcm : c m with
  | done x m₁ =>
    rw [TrapM.bind_of_done hcm] at h
    exact hf x m₁ hcm e m' h
  | trapped e₁ m₁ =>
    rw [TrapM.bind_of_trapped hcm] at h
    cases h
    exact hc e m' hcm
  | crashed why =>
    rw [TrapM.bind_of_crashed hcm] at h
    cases h

theorem faults_translate (a : BitVec 32) (size : ℕ) (writing : Bool) :
    Faults a (translate a size writing) m := by
  intro e m' h
  unfold translate at h
  split at h
  · exact faults_raiseException _ a e m' h
  · split at h
    · cases h
    · cases h

theorem translate_touched {p : Int} (h : translate a size writing m = .done p m₁) :
    Touched m.memory m₁.memory := by
  unfold translate at h
  split at h
  · exact absurd h raiseException_ne_done
  rename_i physAddr entry hok
  have hentry : entry = (m.memory.pageTable (a.toNat / PageSize)).touch writing := by
    unfold Nachos.translate at hok
    simp only at hok
    split_ifs at hok
    cases hok
    rfl
  split at h
  · cases h
    rw [hentry]
    exact ⟨UserMemory.sameMap_touch m.memory a writing, rfl⟩
  · cases h

theorem readMem_touched' {v : BitVec 32} (h : readMem a size m = .done v m₁) :
    Touched m.memory m₁.memory := by
  obtain ⟨p, m₂, htranslate, h⟩ := TrapM.bind_eq_done.mp h
  have ht := translate_touched htranslate
  obtain ⟨mem, m₃, hmem, h⟩ := TrapM.bind_eq_done.mp h
  cases hmem
  split_ifs at h <;> cases h <;> exact ht

theorem faults_readMem (a : BitVec 32) (size : ℕ) : Faults a (readMem a size) m := by
  refine faults_bind (faults_translate a size false) fun p m₁ _ e m' h => ?_
  refine absurd h (NoTrap.ne ?_)
  infer_instance

theorem faults_writeMem (a : BitVec 32) (size : ℕ) (v : BitVec 32) :
    Faults a (writeMem a size v) m := by
  refine faults_bind (faults_translate a size true) fun p m₁ _ e m' h => ?_
  refine absurd h (NoTrap.ne ?_)
  have : ∀ f : Machine → Machine, NoTrap (TrapM.update f : SimM Unit) :=
    fun f => TrapM.bound_update fun _ _ => trivial
  infer_instance

/-- After a read the instruction may go on with what can fail at the same address only. -/
theorem faults_readMem_bind {α : Type} {f : BitVec 32 → SimM α}
    (hf : ∀ v m₁, m₁.registers = m.registers → Faults a (f v) m₁) :
    Faults a (readMem a size >>= f) m := by
  refine faults_bind (faults_readMem a size) fun v m₁ h e m' h' => ?_
  exact (hf v m₁ (readMem_registers h)).of_touched (readMem_registers h) (readMem_touched' h) h'

theorem faults_assert {α : Type} {p : Prop} [Decidable p] {f : Unit → SimM α} {bad : BitVec 32}
    (hf : p → Faults bad (f ()) m) : Faults bad (assert p >>= f) m := by
  unfold assert
  split
  · rename_i hp
    exact hf hp
  · intro e m' h
    cases h

theorem and_not_three {a : BitVec 32} (h : a &&& 3 = 0) : a &&& ~~~3 = a := by
  have hsplit : (a &&& 3) ||| (a &&& ~~~3) = a := by
    rw [← BitVec.and_or_distrib_left, BitVec.or_not_self, BitVec.and_allOnes]
  rw [h] at hsplit
  exact BitVec.zero_or.symm.trans hsplit

theorem faults_ite {α : Type} {p : Prop} [Decidable p] {c d : SimM α} {bad : BitVec 32}
    (hc : Faults bad c m) (hd : Faults bad d m) : Faults bad (if p then c else d) m := by
  split
  · exact hc
  · exact hd

/-! ## Instructions -/

theorem faults_readReg {α : Type} {i : Fin NumTotalRegs} {f : BitVec 32 → SimM α} {bad : BitVec 32}
    (hf : Faults bad (f (m.registers i)) m) : Faults bad (readReg i >>= f) m := hf

theorem faults_effectiveAddr {α : Type} {f : BitVec 32 → SimM α} {bad : BitVec 32}
    (hf : Faults bad (f (m.registers (gpr instr.rs) + instr.extra)) m) :
    Faults bad (effectiveAddr instr >>= f) m := hf

/-- A load that has read memory only fills in what is left to do. -/
theorem faults_load {f : BitVec 32 → SimM Rest} (hf : ∀ v, NoTrap (f v)) :
    Faults a (readMem a size >>= f) m :=
  faults_readMem_bind fun v _ _ => (hf v).faults a

theorem faults_loadHalf (signed : Bool) :
    Faults (m.registers (gpr instr.rs) + instr.extra) (loadHalf instr pcAfter signed) m := by
  apply faults_effectiveAddr
  apply faults_ite
  · exact faults_raiseException _ _
  · exact faults_load fun v => inferInstance

theorem faults_store (size : ℕ) :
    Faults (m.registers (gpr instr.rs) + instr.extra) (store instr pcAfter size) m := by
  apply faults_effectiveAddr
  apply faults_readReg
  apply faults_bind
  · exact faults_writeMem _ _ _
  · intro _ m₁ _ e m' h
    cases h

/-- `SWL` and `SWR` read the word before they write it, at the address of the read. -/
theorem faults_spill (spill : BitVec 32 → BitVec 32 → BitVec 32) :
    Faults a (do
      let value ← readMem a 4
      let rt ← readReg (gpr instr.rt)
      writeMem a 4 (spill value rt)
      pure ⟨pcAfter, 0, 0⟩ : SimM Rest) m := by
  apply faults_readMem_bind
  intro v m₁ _
  apply faults_readReg
  apply faults_bind
  · exact faults_writeMem _ _ _
  · intro _ m₂ _ e m' h
    cases h

theorem faults_execute (instr : Instruction) (pcAfter : BitVec 32) (m : Machine) :
    Faults (instr.faultAddress m.registers) (execute instr pcAfter) m := by
  unfold Instruction.faultAddress
  cases hcode : instr.opCode <;> simp only [execute, hcode]
  case ADD | SUB =>
    apply faults_readReg
    apply faults_readReg
    apply faults_ite
    · exact faults_raiseException _ 0
    · exact NoTrap.faults inferInstance 0
  case ADDI =>
    apply faults_readReg
    apply faults_ite
    · exact faults_raiseException _ 0
    · exact NoTrap.faults inferInstance 0
  case LB | LBU =>
    apply faults_effectiveAddr
    exact faults_load fun v => inferInstance
  case LH | LHU => exact faults_loadHalf _
  case LW =>
    apply faults_effectiveAddr
    apply faults_ite
    · exact faults_raiseException _ _
    · exact faults_load fun v => inferInstance
  case LWL | LWR =>
    apply faults_effectiveAddr
    apply faults_assert
    intro _
    exact faults_load fun v => inferInstance
  case SB | SH | SW => exact faults_store _
  case SWL =>
    apply faults_effectiveAddr
    apply faults_assert
    intro haligned
    rw [and_not_three haligned]
    exact faults_spill (spillLeft _)
  case SWR =>
    apply faults_effectiveAddr
    apply faults_assert
    intro haligned
    rw [and_not_three haligned]
    exact faults_spill (spillRight _)
  case SYSCALL | RES | UNIMP => exact faults_raiseException _ 0
  all_goals exact NoTrap.faults inferInstance 0

/-- The fetch and the `switch`. -/
theorem faults_fetchExecute (debug : Bool) (m : Machine) :
    Faults m.faultAddress (fetchExecute debug) m := by
  intro e m' h
  have hpc : readReg PCReg m = .done (m.registers PCReg) m := rfl
  cases hr : readMem (m.registers PCReg) 4 m with
  | done raw m₁ =>
    have hreg := readMem_registers hr
    rw [fetchExecute_of_done debug hr] at h
    rw [faultAddress, fetched_of_done hr]
    show m.Precise ((decode raw).faultAddress m.registers) m'
    rw [← hreg]
    exact (faults_execute (decode raw) _ m₁).of_touched hreg (readMem_touched' hr) h
  | trapped e₁ m₁ =>
    rw [fetchExecute, TrapM.bind_of_done hpc, TrapM.bind_of_trapped hr] at h
    cases h
    rw [faultAddress, fetched, hr]
    exact faults_readMem _ 4 e m' hr
  | crashed why =>
    rw [fetchExecute, TrapM.bind_of_done hpc, TrapM.bind_of_crashed hr] at h
    cases h

theorem faults_oneInstruction (debug : Bool) (m : Machine) :
    Faults m.faultAddress (oneInstruction debug) m := by
  apply faults_bind
  · exact faults_fetchExecute debug m
  · intro rest m₁ _ e m' h
    exact absurd h (NoTrap.ne inferInstance)

/-! ## What the handler finds -/

/-- The word at a place in `mainMemory`. -/
def wordAt (mem : Bytes.Memory) (p : Int) : BitVec 32 :=
  mem (p + 3) ++ mem (p + 2) ++ mem (p + 1) ++ mem p

/-- The instruction that is fetched depends on the program counter, main memory and what the page
table says of the page. -/
theorem fetched_eq (m : Machine) : m.fetched =
    ((Nachos.translate m.memory.pageTable m.memory.pageTableSize (m.registers PCReg) 4 false).map
      Prod.fst).toOption.bind fun physAddr =>
        if 0 ≤ physAddr.toInt ∧ physAddr.toInt + 4 ≤ MemorySize then
          some (decode (wordAt m.memory.mainMemory physAddr.toInt))
        else none := by
  unfold fetched
  cases ht : Nachos.translate m.memory.pageTable m.memory.pageTableSize (m.registers PCReg) 4
      false with
  | error e =>
    cases hread : readMem (m.registers PCReg) 4 m with
    | done raw m₁ =>
      obtain ⟨p, m₂, htranslate, -⟩ := TrapM.bind_eq_done.mp hread
      rw [translate_of_error ht] at htranslate
      exact absurd htranslate raiseException_ne_done
    | trapped e₁ m₁ => rfl
    | crashed why => rfl
  | ok r =>
    obtain ⟨physAddr, entry⟩ := r
    by_cases hin : 0 ≤ physAddr.toInt ∧ physAddr.toInt + 4 ≤ MemorySize
    · obtain ⟨m₁, hread⟩ : ∃ m₁, readMem (m.registers PCReg) 4 m =
          .done (wordAt m.memory.mainMemory physAddr.toInt) m₁ := by
        simp [readMem, translate, TrapM.bind_apply, TrapM.gets, ht, hin, wordAt]
      rw [hread]
      simp [Except.map, Except.toOption, hin]
    · have hread : readMem (m.registers PCReg) 4 m = .crashed .assertFailed := by
        simp [readMem, translate, TrapM.bind_apply, ht, hin]
      rw [hread]
      simp [Except.map, Except.toOption, hin]

theorem fetched_congr (hpc : m'.registers PCReg = m.registers PCReg)
    (ht : Touched m.memory m'.memory) : m'.fetched = m.fetched := by
  rw [fetched_eq, fetched_eq, hpc, ht.toSameMap.translate_fst, ht.main]

theorem delayedLoad_apply {r : Registers} {n v : BitVec 32} {i : Fin NumTotalRegs} (hzero : i ≠ 0)
    (hload : i ≠ LoadReg) (hvalue : i ≠ LoadValueReg) :
    r.delayedLoad n v i = if (r LoadReg).toNat = i then r LoadValueReg else r i := by
  simp only [Registers.delayedLoad, writeRegister, Function.update_of_ne hzero,
    Function.update_of_ne hload, Function.update_of_ne hvalue]
  split
  · rename_i hlt
    by_cases hi : (r LoadReg).toNat = i
    · rw [if_pos hi, Fin.ext (a := i) (b := ⟨(r LoadReg).toNat, hlt⟩) hi.symm, Function.update_self]
    · rw [if_neg hi, Function.update_of_ne fun h => hi (congrArg Fin.val h).symm]
  · rename_i hlt
    have := i.isLt
    rw [if_neg (by omega)]

theorem Precise.apply {bad : BitVec 32} {i : Fin NumTotalRegs} (h : m.Precise bad m')
    (hi : i ∉ [0, LoadReg, LoadValueReg, BadVAddrReg]) : m'.registers i =
      if (m.registers LoadReg).toNat = i then m.registers LoadValueReg else m.registers i := by
  simp only [List.mem_cons, List.not_mem_nil, or_false, not_or] at hi
  obtain ⟨hzero, hload, hvalue, hbad⟩ := hi
  have hload' : LoadReg ≠ BadVAddrReg := by decide
  have hvalue' : LoadValueReg ≠ BadVAddrReg := by decide
  rw [h.registers, trapRegisters, delayedLoad_apply hzero hload hvalue]
  simp only [writeRegister, Function.update_of_ne hbad, Function.update_of_ne hload',
    Function.update_of_ne hvalue']

theorem Precise.special {bad : BitVec 32} {i : Fin NumTotalRegs} (h : m.Precise bad m')
    (hm : m.registers.Valid) (hi : Special i) (hbad : i ≠ BadVAddrReg) :
    m'.registers i = m.registers i := by
  have hload : m.registers.writeRegister BadVAddrReg bad LoadReg = m.registers LoadReg :=
    Function.update_of_ne (by decide) _ _
  rw [h.registers, trapRegisters, delayedLoad_special (by rw [hload]; exact hm.load) hi]
  exact Function.update_of_ne hbad _ _

theorem Precise.badVAddr {bad : BitVec 32} (h : m.Precise bad m') (hm : m.registers.Valid) :
    m'.registers BadVAddrReg = bad := by
  have hload : m.registers.writeRegister BadVAddrReg bad LoadReg = m.registers LoadReg :=
    Function.update_of_ne (by decide) _ _
  rw [h.registers, trapRegisters, delayedLoad_special (by rw [hload]; exact hm.load)
    ⟨by decide, by decide, by decide⟩]
  exact Function.update_self ..

/-- Whatever exception an instruction raises, and wherever in it: no byte of memory has changed,
the registers are as before but for the delayed load, which has been done, and the address of the
failure is in `BadVAddrReg`. As the program counters are unchanged and the page table says what it
said, the instruction is fetched again when the handler returns without advancing them. -/
theorem oneInstruction_precise (h : oneInstruction debug m = .trapped e m') :
    m'.memory.mainMemory = m.memory.mainMemory ∧
    (∀ i : Fin NumTotalRegs, i ∉ [0, LoadReg, LoadValueReg, BadVAddrReg] → m'.registers i =
      if (m.registers LoadReg).toNat = i then m.registers LoadValueReg else m.registers i) ∧
    m'.registers 0 = 0 ∧ m'.registers LoadReg = 0 ∧ m'.registers LoadValueReg = 0 ∧
    (m.registers.Valid → m'.registers BadVAddrReg = m.faultAddress ∧
      m'.registers HiReg = m.registers HiReg ∧ m'.registers LoReg = m.registers LoReg ∧
      m'.registers PCReg = m.registers PCReg ∧ m'.registers NextPCReg = m.registers NextPCReg ∧
      m'.registers 0 = m.registers 0 ∧ m'.fetched = m.fetched) := by
  have hp : m.Precise m.faultAddress m' := faults_oneInstruction debug m e m' h
  obtain ⟨h0, hload, hvalue⟩ := settle_reads (m.registers.writeRegister BadVAddrReg m.faultAddress)
  refine ⟨hp.memory.main, fun i hi => hp.apply hi, ?_, ?_, ?_, fun hm => ?_⟩
  · rw [hp.registers]
    exact h0
  · rw [hp.registers]
    exact hload
  · rw [hp.registers]
    exact hvalue
  have hpc : m'.registers PCReg = m.registers PCReg :=
    hp.special hm ⟨by decide, by decide, by decide⟩ (by decide)
  refine ⟨hp.badVAddr hm, hp.special hm ⟨by decide, by decide, by decide⟩ (by decide),
    hp.special hm ⟨by decide, by decide, by decide⟩ (by decide), hpc,
    hp.special hm ⟨by decide, by decide, by decide⟩ (by decide), ?_,
    fetched_congr hpc hp.memory⟩
  rw [hp.registers, hm.zero]
  exact h0

/-- `ADD r1,r1,r1` with a load of `5` into `r2` under way. -/
theorem oneInstruction_precise_add :
    ∃ m', oneInstruction false (sample 0x00210820 fun i =>
        if i = 1 then 0x40000000 else if i = LoadReg then 2 else if i = LoadValueReg then 5 else 0) =
        .trapped .OverflowException m' ∧
      m'.registers 1 = 0x40000000 ∧ m'.registers 2 = 5 ∧ m'.registers LoadReg = 0 := by
  have hrun : ∃ m', oneInstruction false (sample 0x00210820 fun i =>
      if i = 1 then 0x40000000 else if i = LoadReg then 2 else if i = LoadValueReg then 5 else 0) =
      .trapped .OverflowException m' := ⟨_, rfl⟩
  obtain ⟨m', hrun⟩ := hrun
  obtain ⟨-, hreg, -, hload, -⟩ := oneInstruction_precise hrun
  exact ⟨m', hrun, hreg 1 (by decide), hreg 2 (by decide), hload⟩

end Machine

end Mips

end Nachos
