import Nachos.Machine.FlatMemory

/-!
# The register of a delayed load

`DelayedLoad` stores through `registers[registers[LoadReg]]`. Between two instructions that
register is one of the thirty-two an instruction can name, and register `0` is zero.
-/
namespace Nachos

namespace Registers

variable {r : Registers} {i : Fin NumTotalRegs} {n v : BitVec 32}

/-- The registers between two instructions. -/
structure Valid (r : Registers) : Prop where
  zero : r 0 = 0
  load : (r LoadReg).toNat < 32

instance : Decidable (Valid r) :=
  decidable_of_iff (r 0 = 0 ∧ (r LoadReg).toNat < 32) ⟨fun h => ⟨h.1, h.2⟩, fun h => ⟨h.zero, h.load⟩⟩

/-- Neither one of the thirty-two nor one of the two that tell `DelayedLoad` what to do. -/
def Special (i : Fin NumTotalRegs) : Prop := 32 ≤ i.val ∧ i ≠ LoadReg ∧ i ≠ LoadValueReg

/-- A delayed load of one of the thirty-two registers leaves the others alone. -/
theorem delayedLoad_special (hr : (r LoadReg).toNat < 32) (hi : Special i) :
    r.delayedLoad n v i = r i := by
  obtain ⟨hi, hload, hvalue⟩ := hi
  have hzero : i ≠ 0 := by
    rintro rfl
    exact absurd hi (by decide)
  have hlt : (r LoadReg).toNat < NumTotalRegs := by
    rw [NumTotalRegs]
    omega
  have hne : i ≠ ⟨(r LoadReg).toNat, hlt⟩ := by
    rintro rfl
    exact absurd hi (by show ¬32 ≤ (r LoadReg).toNat; omega)
  simp [delayedLoad, writeRegister, hlt, hzero, hload, hvalue, hne]

theorem delayedLoad_zero : r.delayedLoad n v 0 = 0 := by
  simp [delayedLoad, writeRegister]

theorem delayedLoad_loadReg : r.delayedLoad n v LoadReg = n := by
  have h1 : LoadReg ≠ LoadValueReg := by decide
  have h2 : LoadReg ≠ 0 := by decide
  simp [delayedLoad, writeRegister, h1, h2]

theorem valid_delayedLoad (hn : n.toNat < 32) : (r.delayedLoad n v).Valid :=
  ⟨delayedLoad_zero, by rwa [delayedLoad_loadReg]⟩

theorem valid_settle : r.settle.Valid := valid_delayedLoad (by decide)

/-- Registers that are the same but for some that do not matter. -/
theorem Valid.congr {r' : Registers} (h : r.Valid) (h0 : r' 0 = r 0)
    (hload : r' LoadReg = r LoadReg) : r'.Valid :=
  ⟨h0.trans h.zero, by rw [hload]; exact h.load⟩

theorem Valid.writeRegister (h : r.Valid) (hi : i ≠ 0) (hload : i ≠ LoadReg) (v : BitVec 32) :
    (r.writeRegister i v).Valid :=
  h.congr (Function.update_of_ne hi.symm _ _) (Function.update_of_ne hload.symm _ _)

theorem Valid.increaseProgramCounter (h : r.Valid) : r.increaseProgramCounter.Valid :=
  ((h.writeRegister (by decide) (by decide) _).writeRegister (by decide) (by decide)
    _).writeRegister (by decide) (by decide) _

theorem valid_initRegisters (numPages : BitVec 32) : (initRegisters numPages).Valid := by
  have hzero : Valid fun _ => 0 := ⟨rfl, by decide⟩
  exact ((hzero.writeRegister (by decide) (by decide) _).writeRegister (by decide) (by decide)
    _).writeRegister (by decide) (by decide) _

end Registers

namespace Mips.Machine

open Registers
open TrapM (Bound)

variable {m : Machine} {v : BitVec 32} {debug : Bool}

/-- What `RaiseException` hands over, called with `v` in `LoadReg`. -/
def Raised (v : BitVec 32) (m : Machine) : Prop :=
  ∃ (m₁ : Machine) (a : BitVec 32), m₁.registers LoadReg = v ∧ m.registers = m₁.trapRegisters a

theorem Raised.valid (h : Raised v m) : m.registers.Valid := by
  obtain ⟨m₁, a, -, hr⟩ := h
  rw [hr]
  exact valid_settle

/-- The command leaves the number in `LoadReg` as it is, and `RaiseException` finds it there. -/
abbrev KeepsLoad {α : Type} (v : BitVec 32) (c : SimM α) : Prop :=
  Bound (fun m => m.registers LoadReg = v) (Raised v) True c

instance : Stable (fun m => m.registers LoadReg = v) (Raised v) True where
  writeReg hi _ := TrapM.bound_update fun m hm => (Function.update_of_ne hi.symm _ _).trans hm
  memory hm _ := hm
  raiseException which badVAddr := ⟨by
    intro m hm
    rw [raiseException_apply]
    split
    · exact ⟨m, badVAddr, hm, rfl⟩
    · trivial⟩

instance {α : Type} (why : Crash) : KeepsLoad v (TrapM.crash why : SimM α) := ⟨fun _ _ => trivial⟩

instance (p : Prop) [Decidable p] : KeepsLoad v (assert p) := by
  unfold assert
  infer_instance

instance (rs rt : BitVec 32) : KeepsLoad v (divide rs rt) := by
  unfold divide
  infer_instance

theorem keepsLoad_execute (instr : Instruction) (pcAfter : BitVec 32) :
    KeepsLoad v (execute instr pcAfter) := by
  have hb : KeepsLoad v (store instr pcAfter 1) := bound_store instr pcAfter (.inl rfl)
  have hh : KeepsLoad v (store instr pcAfter 2) := bound_store instr pcAfter (.inr (.inl rfl))
  have hw : KeepsLoad v (store instr pcAfter 4) := bound_store instr pcAfter (.inr (.inr rfl))
  unfold execute
  cases instr.opCode <;> infer_instance

instance : KeepsLoad v (fetchExecute debug) := by
  have := keepsLoad_execute (v := v)
  unfold fetchExecute
  infer_instance

/-- What `complete` makes of the registers. -/
def completed (m : Machine) (rest : Rest) : Registers :=
  let r := m.registers.delayedLoad (BitVec.ofNat 32 rest.nextLoadReg) rest.nextLoadValue
  ((r.writeRegister PrevPCReg (r PCReg)).writeRegister PCReg (r NextPCReg)).writeRegister NextPCReg
    rest.pcAfter

theorem complete_of_valid (hm : LoadRegValid m) (rest : Rest) :
    complete rest m = .done () { m with registers := m.completed rest } :=
  TrapM.bind_of_done (delayedLoad_of_valid hm _ _)

/-- What an instruction leaves that is completed with `v` in `LoadReg`. -/
def Completed (v : BitVec 32) (m : Machine) : Prop :=
  ∃ (m₁ : Machine) (rest : Rest), m₁.registers LoadReg = v ∧ m.registers = m₁.completed rest

theorem Completed.valid (h : Completed v m) : m.registers.Valid := by
  obtain ⟨m₁, rest, -, hr⟩ := h
  have hreg : (BitVec.ofNat 32 rest.nextLoadReg).toNat < 32 := by
    have := rest.nextLoadReg.isLt
    rw [Word.toNat_ofNat (by omega)]
    exact this
  rw [hr]
  exact (((valid_delayedLoad hreg).writeRegister (by decide) (by decide) _).writeRegister
    (by decide) (by decide) _).writeRegister (by decide) (by decide) _

/-- Every delayed load of an instruction, at its end or in `RaiseException`, is of the register
that was in `LoadReg` before it. -/
theorem oneInstruction_loads (debug : Bool) (m : Machine) :
    (oneInstruction debug m).Meets (Completed (m.registers LoadReg))
      (Raised (m.registers LoadReg)) True := by
  have hfetch := (inferInstance : KeepsLoad (m.registers LoadReg) (fetchExecute debug)).meets m rfl
  unfold oneInstruction
  cases h : fetchExecute debug m with
  | done rest m₁ =>
    rw [h] at hfetch
    rw [TrapM.bind_of_done h]
    by_cases hv : LoadRegValid m₁
    · rw [complete_of_valid hv]
      exact ⟨m₁, rest, hfetch, rfl⟩
    · rw [complete_of_not hv]
      trivial
  | trapped e m₁ =>
    rw [h] at hfetch
    rw [TrapM.bind_of_trapped h]
    exact hfetch
  | crashed why =>
    rw [TrapM.bind_of_crashed h]
    trivial

/-- `r'` is what an instruction leaves of the registers `r`, or hands to the handler of an
exception. -/
def Executes (r r' : Registers) : Prop :=
  ∃ (debug : Bool) (memory : UserMemory) (m' : Machine), m'.registers = r' ∧
    (oneInstruction debug ⟨r, memory⟩ = .done () m' ∨
      ∃ e, oneInstruction debug ⟨r, memory⟩ = .trapped e m')

theorem Executes.valid {r r' : Registers} (h : Executes r r') : r'.Valid := by
  obtain ⟨debug, memory, m', rfl, h⟩ := h
  have hloads := oneInstruction_loads debug ⟨r, memory⟩
  rcases h with h | ⟨e, h⟩
  · rw [h] at hloads
    exact Completed.valid hloads
  · rw [h] at hloads
    exact Raised.valid hloads

end Mips.Machine

end Nachos
