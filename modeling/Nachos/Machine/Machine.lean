import Mathlib.Algebra.GroupWithZero.Nat
import Mathlib.Data.Fintype.Pi
import Mathlib.Data.List.Basic
import Mathlib.Tactic.Common

/-!
# The simulated machine

The registers with their load delay slot, and the translation of virtual addresses
(`machine.cc`, `mipssim.cc`, `translate.cc`). The build has no TLB.
-/
namespace Nachos

def PageSize : ℕ := 512
def NumPhysPages : ℕ := 128
def MemorySize : ℕ := NumPhysPages * PageSize

/-- `enum ExceptionType` of `machine.h`. -/
inductive ExceptionType
  | NoException | SyscallException | PageFaultException | ReadOnlyException | BusErrorException
  | AddressErrorException | OverflowException | IllegalInstrException
  deriving DecidableEq

abbrev NumTotalRegs : ℕ := 40

instance : NeZero NumTotalRegs := ⟨by decide⟩

abbrev Registers := Fin NumTotalRegs → BitVec 32

namespace Registers

abbrev StackReg : Fin NumTotalRegs := 29
abbrev PCReg : Fin NumTotalRegs := 34
abbrev NextPCReg : Fin NumTotalRegs := 35
abbrev PrevPCReg : Fin NumTotalRegs := 36
abbrev LoadReg : Fin NumTotalRegs := 37
abbrev LoadValueReg : Fin NumTotalRegs := 38
abbrev BadVAddrReg : Fin NumTotalRegs := 39

def writeRegister (r : Registers) (num : Fin NumTotalRegs) (value : BitVec 32) : Registers :=
  Function.update r num value

/-- `Machine::DelayedLoad`. Decoding leaves a register number in `LoadReg`; a number
outside the register file is not stored through. -/
def delayedLoad (r : Registers) (nextReg nextValue : BitVec 32) : Registers :=
  let r₁ := if h : (r LoadReg).toNat < NumTotalRegs then
    r.writeRegister ⟨(r LoadReg).toNat, h⟩ (r LoadValueReg) else r
  ((r₁.writeRegister LoadReg nextReg).writeRegister LoadValueReg nextValue).writeRegister 0 0

/-- What an interrupt or a trap does to a load in progress. -/
def settle (r : Registers) : Registers := r.delayedLoad 0 0

/-- After it nothing is in progress. -/
theorem settle_reads (r : Registers) :
    r.settle 0 = 0 ∧ r.settle LoadReg = 0 ∧ r.settle LoadValueReg = 0 := by
  have h1 : LoadReg ≠ 0 := by decide
  have h2 : LoadValueReg ≠ 0 := by decide
  have h3 : LoadReg ≠ LoadValueReg := by decide
  simp [settle, delayedLoad, writeRegister, h1, h2, h3]

theorem settle_eq_self {r : Registers} (h0 : r 0 = 0) (h1 : r LoadReg = 0)
    (h2 : r LoadValueReg = 0) : r.settle = r := by
  have hw : ∀ {i : Fin NumTotalRegs}, r i = 0 → Function.update r i 0 = r := by
    intro i hi
    rw [← hi, Function.update_eq_self]
  have hl : (r LoadReg).toNat < NumTotalRegs := by rw [h1]; decide
  have h0' : r ⟨(r LoadReg).toNat, hl⟩ = 0 := by simpa [h1] using h0
  unfold settle delayedLoad writeRegister
  simp only [dif_pos hl, h2, hw h0', hw h1]
  rw [hw h2, hw h0]

@[simp] theorem settle_settle (r : Registers) : r.settle.settle = r.settle := by
  obtain ⟨h0, h1, h2⟩ := settle_reads r
  exact settle_eq_self h0 h1 h2

/-- `Increase_ProgramCounter` of `exception.cc`. -/
def increaseProgramCounter (r : Registers) : Registers :=
  ((r.writeRegister PrevPCReg (r PCReg)).writeRegister PCReg (r NextPCReg)).writeRegister
    NextPCReg (r NextPCReg + 4)

theorem increaseProgramCounter_result (r : Registers) : r.increaseProgramCounter 2 = r 2 := by
  simp [increaseProgramCounter, writeRegister, show (2 : Fin NumTotalRegs) ≠ PCReg by decide,
    show (2 : Fin NumTotalRegs) ≠ NextPCReg by decide,
    show (2 : Fin NumTotalRegs) ≠ PrevPCReg by decide]

/-- `AddrSpace::InitRegisters` for an address space of `numPages` pages. -/
def initRegisters (numPages : BitVec 32) : Registers :=
  let zeroed : Registers := fun _ => 0
  ((zeroed.writeRegister PCReg 0).writeRegister NextPCReg 4).writeRegister StackReg
    (numPages * BitVec.ofNat 32 PageSize - 16)

end Registers

/-- `class TranslationEntry`. -/
structure TranslationEntry where
  virtualPage : Int
  physicalPage : Int
  valid : Bool
  readOnly : Bool
  use : Bool
  dirty : Bool
  deriving DecidableEq

instance : Inhabited TranslationEntry := ⟨⟨0, 0, false, false, false, false⟩⟩

/-- `Machine::Translate` through a page table of `pageTableSize` entries: the physical
address and the entry with its use bits set, or the exception. -/
def translate (pageTable : ℕ → TranslationEntry) (pageTableSize virtAddr : BitVec 32) (size : ℕ)
    (writing : Bool) : Except ExceptionType (BitVec 32 × TranslationEntry) :=
  if (size = 4 ∧ virtAddr &&& 3 ≠ 0) ∨ (size = 2 ∧ virtAddr &&& 1 ≠ 0) then
    .error .AddressErrorException
  else
    let vpn := virtAddr.toNat / PageSize
    let offset := virtAddr.toNat % PageSize
    if pageTableSize.toNat ≤ vpn then .error .AddressErrorException
    else
      let entry := pageTable vpn
      if !entry.valid then .error .PageFaultException
      else if entry.readOnly && writing then .error .ReadOnlyException
      else
        let pageFrame := BitVec.ofInt 32 entry.physicalPage
        if NumPhysPages ≤ pageFrame.toNat then .error .BusErrorException
        else .ok (pageFrame * BitVec.ofNat 32 PageSize + BitVec.ofNat 32 offset,
          { entry with use := true, dirty := entry.dirty || writing })

/-- A bus error is raised exactly for a valid, permitted entry whose frame is not there. -/
theorem translate_busError {pageTable : ℕ → TranslationEntry} {pageTableSize virtAddr : BitVec 32}
    {size : ℕ} {writing : Bool}
    (h : translate pageTable pageTableSize virtAddr size writing = .error .BusErrorException) :
    virtAddr.toNat / PageSize < pageTableSize.toNat ∧
    (pageTable (virtAddr.toNat / PageSize)).valid = true ∧
    NumPhysPages ≤ (BitVec.ofInt 32 (pageTable (virtAddr.toNat / PageSize)).physicalPage).toNat := by
  simp only [translate] at h
  split at h
  · cases h
  split at h
  · cases h
  split at h
  · cases h
  split at h
  · cases h
  split at h
  · rename_i hv _ hp
    exact ⟨by omega, by simpa using hv, hp⟩
  · cases h

end Nachos
