import Nachos.Lib.Word
import Nachos.Machine.Mipssim

/-!
# Which instructions bring the simulator down

As long as `LoadReg` has the number of a register, most commands of the simulator return or
raise an exception, and leave such a number there. The others are the unaligned loads and
stores, whose `ASSERT` a user program can make fail, and `DIV`.
-/
namespace Nachos.Mips

open Registers
open TrapM (Bound)

/-- What `DelayedLoad` relies on. -/
def LoadRegValid (m : Machine) : Prop := (m.registers LoadReg).toNat < NumTotalRegs

/-- With a register in `LoadReg` the command does not crash. Without one it does nothing else,
if it ends at all. Both leave `LoadReg` as good as it was. -/
abbrev Sound {α : Type} (valid : Prop) (c : SimM α) : Prop :=
  Bound (fun m => LoadRegValid m ↔ valid) (fun m => valid ∧ LoadRegValid m) (¬valid) c

namespace OpCode

/-- The codes with a case of their own in `OneInstruction`. -/
def Implemented (op : OpCode) : Prop := op.number ≤ MaxOpcode ∧ op ≠ RFE

instance (op : OpCode) : Decidable op.Implemented := inferInstanceAs (Decidable (_ ∧ _))

end OpCode

theorem bcond_implemented (value : BitVec 32) : (bcond value).Implemented := by
  simp only [bcond]
  split_ifs <;> decide

theorem getD_of_forall {α : Type} {p : α → Prop} {l : List α} {d : α} (hl : ∀ a ∈ l, p a)
    (hd : p d) (i : ℕ) : p (l.getD i d) := by
  rw [List.getD_eq_getElem?_getD]
  cases h : l[i]? with
  | none => exact hd
  | some a => exact hl a (List.mem_of_getElem? h)

/-- Every word is decoded to an instruction that is executed. -/
theorem decode_implemented (value : BitVec 32) : (decode value).opCode.Implemented := by
  have hop : ∀ e ∈ opTable, e.1 = .SPECIAL ∨ e.1 = .BCOND ∨ e.1.Implemented := by decide
  have hspecial : ∀ op ∈ specialTable, op.Implemented := by decide
  have htable := getD_of_forall (d := (.RES, .IFMT)) hop (by decide)
    (value >>> 26 &&& 0x3f).toNat
  have hfunct := getD_of_forall (d := .RES) hspecial (by decide) (value &&& 0x3f).toNat
  simp only [decode]
  split
  · exact hfunct
  · exact bcond_implemented value
  · rename_i hs hb
    rcases htable with h | h | h
    · exact absurd h hs
    · exact absurd h hb
    · exact h

namespace Machine

variable {valid : Prop}

/-- `I` does not depend on memory or a register but `LoadReg`, and `T` holds when an exception
is raised. The commands of an instruction then go from `I` to `I` or `T`. -/
class Stable (I T : Machine → Prop) (K : Prop) : Prop where
  writeReg {i : Fin NumTotalRegs} (hi : i ≠ LoadReg) (v : BitVec 32) : Bound I T K (writeReg i v)
  memory {m : Machine} (hm : I m) (u : UserMemory) : I { m with memory := u }
  raiseException {α : Type} (which : ExceptionType) (badVAddr : BitVec 32) :
    Bound I T K (raiseException which badVAddr : SimM α)

section Commands

variable {i : Fin NumTotalRegs}

theorem sound_writeReg (hi : i ≠ LoadReg) (v : BitVec 32) : Sound valid (writeReg i v) :=
  TrapM.bound_update fun m hm => by
    simpa [LoadRegValid, writeRegister, Function.update_of_ne hi.symm] using hm

theorem delayedLoad_of_valid {m : Machine} (hm : LoadRegValid m) (r v : BitVec 32) :
    delayedLoad r v m = .done () { m with registers := m.registers.delayedLoad r v } :=
  if_pos hm

theorem delayedLoad_of_not {m : Machine} (hm : ¬LoadRegValid m) (r v : BitVec 32) :
    delayedLoad r v m = .crashed .wildStore := if_neg hm

/-- The register that is loaded next is one of the register file. -/
theorem loadRegValid_delayedLoad (m : Machine) {r : BitVec 32} (hr : r.toNat < NumTotalRegs)
    (v : BitVec 32) : LoadRegValid { m with registers := m.registers.delayedLoad r v } := by
  have h1 : LoadReg ≠ LoadValueReg := by decide
  have h2 : LoadReg ≠ 0 := by decide
  simpa [LoadRegValid, Registers.delayedLoad, writeRegister, Function.update_of_ne h1,
    Function.update_of_ne h2] using hr

theorem sound_delayedLoad {r : BitVec 32} (hr : r.toNat < NumTotalRegs) (v : BitVec 32) :
    Sound valid (delayedLoad r v) := ⟨by
  intro m hm
  by_cases hv : LoadRegValid m
  · rw [delayedLoad_of_valid hv]
    exact iff_of_true (loadRegValid_delayedLoad m hr v) (hm.mp hv)
  · rw [delayedLoad_of_not hv]
    exact fun h => hv (hm.mpr h)⟩

instance (r : Fin 32) (v : BitVec 32) : Sound valid (delayedLoad (BitVec.ofNat 32 r) v) :=
  sound_delayedLoad (by
    have := r.isLt
    rw [BitVec.toNat_ofNat, NumTotalRegs]
    omega) v

theorem sound_raiseException {α : Type} (which : ExceptionType) (badVAddr : BitVec 32) :
    Sound valid (raiseException which badVAddr : SimM α) := ⟨by
  intro m hm
  have hwrite : ∀ v : Prop, Sound v (writeReg BadVAddrReg badVAddr) :=
    fun _ => sound_writeReg (by decide) _
  have hm' := (hwrite valid).meets m hm
  show TrapM.Result.Meets _ _ _
    ((do delayedLoad 0 0; fun m => .trapped which m : SimM α)
      { m with registers := m.registers.writeRegister BadVAddrReg badVAddr })
  by_cases hv : LoadRegValid { m with registers := m.registers.writeRegister BadVAddrReg badVAddr }
  · rw [TrapM.bind_of_done (delayedLoad_of_valid hv 0 0)]
    exact ⟨hm'.mp hv, loadRegValid_delayedLoad _ (by decide) 0⟩
  · rw [TrapM.bind_of_crashed (delayedLoad_of_not hv 0 0)]
    exact fun h => hv (hm'.mpr h)⟩

instance : Stable (fun m => LoadRegValid m ↔ valid) (fun m => valid ∧ LoadRegValid m) (¬valid) where
  writeReg := sound_writeReg
  memory hm _ := hm
  raiseException := sound_raiseException

end Commands

/-- A physical address that `Translate` computes is inside `mainMemory`. -/
theorem translate_inMemory {pageTable : ℕ → TranslationEntry} {pageTableSize addr : BitVec 32}
    {size : ℕ} {writing : Bool} {physAddr : BitVec 32} {entry : TranslationEntry}
    (hsize : size = 1 ∨ size = 2 ∨ size = 4)
    (h : Nachos.translate pageTable pageTableSize addr size writing = .ok (physAddr, entry)) :
    0 ≤ physAddr.toInt ∧ physAddr.toInt + size ≤ MemorySize := by
  simp only [Nachos.translate] at h
  split at h
  · cases h
  rename_i haligned
  split at h
  · cases h
  split at h
  · cases h
  split at h
  · cases h
  split at h
  · cases h
  rename_i hframe
  simp only [Except.ok.injEq, Prod.mk.injEq] at h
  obtain ⟨rfl, -⟩ := h
  generalize BitVec.ofInt 32 (pageTable (addr.toNat / PageSize)).physicalPage = pageFrame at *
  have hfour : size = 4 → addr.toNat % 4 = 0 := by
    intro hs
    have hand : addr &&& 3 = 0 := by
      by_contra hne
      exact haligned (.inl ⟨hs, hne⟩)
    have := congrArg BitVec.toNat hand
    rwa [Word.toNat_and_three] at this
  have htwo : size = 2 → addr.toNat % 2 = 0 := by
    intro hs
    have hand : addr &&& 1 = 0 := by
      by_contra hne
      exact haligned (.inr ⟨hs, hne⟩)
    have := congrArg BitVec.toNat hand
    rwa [Word.toNat_and_one] at this
  have hphys : (pageFrame * BitVec.ofNat 32 PageSize +
      BitVec.ofNat 32 (addr.toNat % PageSize)).toNat =
      pageFrame.toNat * 512 + addr.toNat % 512 := by
    simp only [NumPhysPages] at hframe
    simp only [PageSize, BitVec.toNat_add, BitVec.toNat_mul, BitVec.toNat_ofNat]
    omega
  simp only [NumPhysPages] at hframe
  simp only [MemorySize, NumPhysPages, PageSize]
  rw [PageSize] at hphys
  rw [Word.toInt_of_lt (by omega), hphys]
  rcases hsize with rfl | rfl | rfl <;> simp at hfour htwo <;> omega

section Stable

variable {I T : Machine → Prop} {K : Prop} [Stable I T K]

instance (i : Fin NumTotalRegs) : Bound I T K (readReg i) :=
  inferInstanceAs (Bound _ _ _ (TrapM.gets _))

instance (r : Fin 32) (v : BitVec 32) : Bound I T K (writeReg (gpr r) v) :=
  Stable.writeReg (by
    intro h
    have := congrArg Fin.val h
    have h37 : r.val = 37 := this
    have := r.isLt
    omega) v

instance (v : BitVec 32) : Bound I T K (writeReg HiReg v) := Stable.writeReg (by decide) v
instance (v : BitVec 32) : Bound I T K (writeReg LoReg v) := Stable.writeReg (by decide) v
instance (v : BitVec 32) : Bound I T K (writeReg R31 v) := Stable.writeReg (by decide) v
instance (v : BitVec 32) : Bound I T K (writeReg PCReg v) := Stable.writeReg (by decide) v
instance (v : BitVec 32) : Bound I T K (writeReg NextPCReg v) := Stable.writeReg (by decide) v
instance (v : BitVec 32) : Bound I T K (writeReg PrevPCReg v) := Stable.writeReg (by decide) v

instance {α : Type} (which : ExceptionType) (badVAddr : BitVec 32) :
    Bound I T K (raiseException which badVAddr : SimM α) := Stable.raiseException which badVAddr

theorem bound_translate {size : ℕ} (hsize : size = 1 ∨ size = 2 ∨ size = 4) (addr : BitVec 32)
    (writing : Bool) : Bound I T K (translate addr size writing) := ⟨by
  intro m hm
  unfold translate
  split
  · exact Bound.meets m hm
  · rename_i h
    rw [if_pos (translate_inMemory hsize h)]
    exact Stable.memory T K hm _⟩

theorem bound_readMem {size : ℕ} (hsize : size = 1 ∨ size = 2 ∨ size = 4) (addr : BitVec 32) :
    Bound I T K (readMem addr size) := by
  have : Bound I T K (translate addr size false) := bound_translate hsize addr false
  unfold readMem
  rcases hsize with rfl | rfl | rfl <;>
    simp only [reduceIte, Nat.reduceEqDiff] <;> infer_instance

instance (addr : BitVec 32) : Bound I T K (readMem addr 1) := bound_readMem (.inl rfl) addr
instance (addr : BitVec 32) : Bound I T K (readMem addr 2) := bound_readMem (.inr (.inl rfl)) addr
instance (addr : BitVec 32) : Bound I T K (readMem addr 4) := bound_readMem (.inr (.inr rfl)) addr

theorem bound_writeMem {size : ℕ} (hsize : size = 1 ∨ size = 2 ∨ size = 4)
    (addr value : BitVec 32) : Bound I T K (writeMem addr size value) := by
  have : Bound I T K (translate addr size true) := bound_translate hsize addr true
  have hupdate : ∀ f : Machine → UserMemory,
      Bound I T K (TrapM.update fun m => { m with memory := f m } : SimM Unit) :=
    fun f => TrapM.bound_update fun m hm => Stable.memory T K hm _
  unfold writeMem
  simp only [if_pos hsize]
  have := fun p => hupdate fun m =>
    { m.memory with
      mainMemory := Bytes.store m.memory.mainMemory p ((Bytes.ofWord value).take size) }
  infer_instance

instance (addr value : BitVec 32) : Bound I T K (writeMem addr 4 value) :=
  bound_writeMem (.inr (.inr rfl)) addr value

variable (instr : Instruction) (pcAfter : BitVec 32)

instance : Bound I T K (effectiveAddr instr) := by
  unfold effectiveAddr
  infer_instance

instance (f : BitVec 32 → BitVec 32 → BitVec 32) : Bound I T K (alu instr pcAfter f) := by
  unfold alu
  infer_instance

instance (f : BitVec 32 → BitVec 32 → BitVec 32) : Bound I T K (aluImm instr pcAfter f) := by
  unfold aluImm
  infer_instance

instance (taken : Bool) (extra : BitVec 32) : Bound I T K (branchIf taken pcAfter extra) := by
  unfold branchIf
  infer_instance

instance : Bound I T K (link R31) := by
  unfold link
  infer_instance

instance (r : Fin 32) : Bound I T K (link (gpr r)) := by
  unfold link
  infer_instance

instance (signed : Bool) : Bound I T K (loadHalf instr pcAfter signed) := by
  unfold loadHalf
  infer_instance

instance (rt : Fin 32) : Bound I T K (loadedSoFar rt) := by
  unfold loadedSoFar
  infer_instance

instance (signedArith : Bool) : Bound I T K (multiply instr pcAfter signedArith) := by
  unfold multiply
  infer_instance

theorem bound_store {size : ℕ} (hsize : size = 1 ∨ size = 2 ∨ size = 4) :
    Bound I T K (store instr pcAfter size) := by
  have : ∀ addr value, Bound I T K (writeMem addr size value) := bound_writeMem hsize
  unfold store
  infer_instance

end Stable

end Machine

/-- Whether an instruction leaves the simulator up: an unaligned load or store is at an
aligned address after all, and a division has a quotient. -/
def Instruction.Harmless (instr : Instruction) (r : Registers) : Prop :=
  match instr.opCode with
  | .LWL | .LWR | .SWL | .SWR => (r (Machine.gpr instr.rs) + instr.extra) &&& 3 = 0
  | .DIV => ¬(r (Machine.gpr instr.rs) = Machine.SIGN_BIT ∧ r (Machine.gpr instr.rt) = -1)
  | _ => True

namespace Machine

variable {instr : Instruction} {pcAfter : BitVec 32} {m : Machine} {valid : Prop} {debug : Bool}

/-- A command ends as `Sound` says, at one state. -/
def Ends {α : Type} (valid : Prop) (r : TrapM.Result Machine ExceptionType Crash α) : Prop :=
  r.Meets (fun m => LoadRegValid m ↔ valid) (fun m => valid ∧ LoadRegValid m) (¬valid)

theorem effectiveAddr_apply (instr : Instruction) (m : Machine) :
    effectiveAddr instr m = .done (m.registers (gpr instr.rs) + instr.extra) m := rfl

/-- What comes after the `ASSERT` of an unaligned load or store. -/
theorem assert_aligned {α : Type} {f : BitVec 32 → SimM α} [hf : ∀ a, Sound valid (f a)]
    (hm : LoadRegValid m ↔ valid)
    (h : valid → (m.registers (gpr instr.rs) + instr.extra) &&& 3 = 0) :
    Ends valid ((do
      let tmp ← effectiveAddr instr
      assert (tmp &&& 3 = 0)
      f tmp : SimM α) m) := by
  rw [TrapM.bind_of_done (effectiveAddr_apply instr m), assert]
  split
  · exact (hf _).meets m hm
  · rename_i hne
    exact fun hv => hne (h hv)

theorem assert_unaligned {α : Type} {f : BitVec 32 → SimM α}
    (h : (m.registers (gpr instr.rs) + instr.extra) &&& 3 ≠ 0) :
    (do
      let tmp ← effectiveAddr instr
      assert (tmp &&& 3 = 0)
      f tmp : SimM α) m = .crashed .assertFailed := by
  rw [TrapM.bind_of_done (effectiveAddr_apply instr m), assert, if_neg h]
  rfl

/-- `DIV`, once the operands are known. -/
theorem divide_ends {f : BitVec 32 × BitVec 32 → SimM Rest} [hf : ∀ q, Sound valid (f q)]
    (rs rt : BitVec 32) (hm : LoadRegValid m ↔ valid)
    (h : valid → ¬(rs = SIGN_BIT ∧ rt = -1)) : Ends valid ((divide rs rt >>= f) m) := by
  unfold divide
  split
  · exact (hf _).meets m hm
  split
  · rename_i hfault
    exact fun hv => h hv hfault
  · exact (hf _).meets m hm

theorem divide_crashed {f : BitVec 32 × BitVec 32 → SimM Rest} (rs rt : BitVec 32)
    (h : rs = SIGN_BIT ∧ rt = -1) : (divide rs rt >>= f) m = .crashed .divisionFault := by
  obtain ⟨rfl, rfl⟩ := h
  rfl

/-- An instruction that is harmless where it is executed. -/
theorem execute_ends (hop : instr.opCode.Implemented) (hm : LoadRegValid m ↔ valid)
    (h : valid → instr.Harmless m.registers) : Ends valid (execute instr pcAfter m) := by
  have hb : Sound valid (store instr pcAfter 1) := bound_store instr pcAfter (.inl rfl)
  have hh : Sound valid (store instr pcAfter 2) := bound_store instr pcAfter (.inr (.inl rfl))
  have hw : Sound valid (store instr pcAfter 4) := bound_store instr pcAfter (.inr (.inr rfl))
  unfold Instruction.Harmless at h
  cases hcode : instr.opCode <;> simp only [hcode] at h <;> simp only [execute, hcode]
  case LWL | LWR | SWL | SWR => exact assert_aligned hm h
  case DIV => exact divide_ends (m.registers _) (m.registers _) hm h
  case RFE => exact absurd hcode hop.2
  case SPECIAL | BCOND =>
    rw [hcode] at hop
    exact absurd hop.1 (by decide)
  all_goals exact Bound.meets m hm

theorem execute_crashed (pcAfter : BitVec 32) (h : ¬instr.Harmless m.registers) :
    ∃ why, execute instr pcAfter m = .crashed why := by
  unfold Instruction.Harmless at h
  cases hcode : instr.opCode <;> simp only [hcode, not_true_eq_false, not_not] at h <;>
    simp only [execute, hcode]
  case LWL | LWR | SWL | SWR => exact ⟨_, assert_unaligned h⟩
  case DIV => exact ⟨_, divide_crashed (m.registers _) (m.registers _) h⟩

/-- The instruction that is fetched, unless its address cannot be translated. -/
def fetched (m : Machine) : Option Instruction :=
  match readMem (m.registers PCReg) 4 m with
  | .done raw _ => some (decode raw)
  | _ => none

theorem raiseException_ne_done {α : Type} {which : ExceptionType} {badVAddr : BitVec 32} {a : α}
    {m' : Machine} : raiseException which badVAddr m ≠ .done a m' := by
  intro h
  obtain ⟨_, _, _, h⟩ := TrapM.bind_eq_done.mp h
  obtain ⟨_, _, _, h⟩ := TrapM.bind_eq_done.mp h
  cases h

theorem translate_registers {addr : BitVec 32} {size : ℕ} {writing : Bool} {p : Int} {m' : Machine}
    (h : translate addr size writing m = .done p m') : m'.registers = m.registers := by
  unfold translate at h
  split at h
  · exact absurd h raiseException_ne_done
  · split at h
    · cases h
      rfl
    · cases h

/-- Reading memory leaves the registers alone. -/
theorem readMem_registers {addr : BitVec 32} {size : ℕ} {value : BitVec 32} {m' : Machine}
    (h : readMem addr size m = .done value m') : m'.registers = m.registers := by
  obtain ⟨p, m₁, htranslate, h⟩ := TrapM.bind_eq_done.mp h
  have hm := translate_registers htranslate
  obtain ⟨mem, m₂, hmem, h⟩ := TrapM.bind_eq_done.mp h
  cases hmem
  rw [← hm]
  split_ifs at h <;> cases h <;> rfl

/-- What is executed when `raw` has been fetched. -/
theorem fetchExecute_of_done (debug : Bool) {raw : BitVec 32} {m' : Machine}
    (h : readMem (m.registers PCReg) 4 m = .done raw m') :
    fetchExecute debug m = execute (decode raw) (m.registers NextPCReg + 4) m' := by
  have hpc : readReg PCReg m = .done (m.registers PCReg) m := rfl
  have hassert : assert (debug = true → (decode raw).opCode.number ≤ OpCode.MaxOpcode) m' =
      .done () m' := by
    rw [assert, if_pos fun _ => (decode_implemented raw).1]
    rfl
  have hnext : readReg NextPCReg m' = .done (m.registers NextPCReg) m' := by
    rw [← readMem_registers h]
    rfl
  rw [fetchExecute, TrapM.bind_of_done hpc, TrapM.bind_of_done h, TrapM.bind_of_done hassert,
    TrapM.bind_of_done hnext]

theorem fetched_of_done {raw : BitVec 32} {m' : Machine}
    (h : readMem (m.registers PCReg) 4 m = .done raw m') : m.fetched = some (decode raw) := by
  rw [fetched, h]

theorem fetchExecute_ends (debug : Bool) (hm : LoadRegValid m ↔ valid)
    (h : valid → ∀ instr ∈ m.fetched, instr.Harmless m.registers) :
    Ends valid (fetchExecute debug m) := by
  have hpc : readReg PCReg m = .done (m.registers PCReg) m := rfl
  have hread := (inferInstance : Sound valid (readMem (m.registers PCReg) 4)).meets m hm
  cases hr : readMem (m.registers PCReg) 4 m with
  | done raw m' =>
    rw [hr] at hread
    rw [fetchExecute_of_done debug hr]
    refine execute_ends (decode_implemented raw) hread fun hv => ?_
    rw [readMem_registers hr]
    exact h hv (decode raw) (fetched_of_done hr)
  | trapped e m' =>
    rw [hr] at hread
    rw [fetchExecute, TrapM.bind_of_done hpc, TrapM.bind_of_trapped hr]
    exact hread
  | crashed why =>
    rw [hr] at hread
    rw [fetchExecute, TrapM.bind_of_done hpc, TrapM.bind_of_crashed hr]
    exact hread

theorem sound_complete (rest : Rest) : Sound valid (complete rest) := by
  unfold complete
  infer_instance

/-- Without a register in `LoadReg` no instruction is completed. -/
theorem complete_of_not (hm : ¬LoadRegValid m) (rest : Rest) :
    complete rest m = .crashed .wildStore :=
  TrapM.bind_of_crashed (delayedLoad_of_not hm _ _)

theorem oneInstruction_ends (debug : Bool) (hm : LoadRegValid m ↔ valid)
    (h : valid → ∀ instr ∈ m.fetched, instr.Harmless m.registers) :
    Ends valid (oneInstruction debug m) := by
  have hends := fetchExecute_ends debug hm h
  cases hf : fetchExecute debug m with
  | done rest m' =>
    rw [hf] at hends
    rw [oneInstruction, TrapM.bind_of_done hf]
    exact (sound_complete rest).meets m' hends
  | trapped e m' =>
    rw [hf] at hends
    rw [oneInstruction, TrapM.bind_of_trapped hf]
    exact hends
  | crashed why =>
    rw [hf] at hends
    rw [oneInstruction, TrapM.bind_of_crashed hf]
    exact hends

theorem crashed_of_not_loadRegValid (debug : Bool) (hload : ¬LoadRegValid m) :
    ∃ why, oneInstruction debug m = .crashed why := by
  have hends := fetchExecute_ends debug (iff_of_false hload id) False.elim
  cases hf : fetchExecute debug m with
  | done rest m' =>
    rw [hf] at hends
    exact ⟨_, (TrapM.bind_of_done hf).trans (complete_of_not hends.mp rest)⟩
  | trapped e m' =>
    rw [hf] at hends
    exact hends.1.elim
  | crashed why => exact ⟨why, TrapM.bind_of_crashed hf⟩

theorem crashed_of_not_harmless (debug : Bool) (hinstr : instr ∈ m.fetched)
    (hharm : ¬instr.Harmless m.registers) : ∃ why, oneInstruction debug m = .crashed why := by
  unfold fetched at hinstr
  split at hinstr
  · rename_i raw m' hr
    cases hinstr
    rw [← readMem_registers hr] at hharm
    obtain ⟨why, hcrash⟩ := execute_crashed (m.registers NextPCReg + 4) hharm
    rw [← fetchExecute_of_done debug hr] at hcrash
    exact ⟨why, TrapM.bind_of_crashed hcrash⟩
  · cases hinstr

/-- It ended by returning or by calling `RaiseException`. -/
def Returns {α : Type} : TrapM.Result Machine ExceptionType Crash α → Prop
  | .crashed _ => False
  | _ => True

/-- `OneInstruction` returns or raises an exception exactly if the number in `LoadReg` is one
of a register and the instruction it fetches, if there is one, is harmless. -/
theorem oneInstruction_returns_iff (debug : Bool) (m : Machine) :
    Returns (oneInstruction debug m) ↔
      LoadRegValid m ∧ ∀ instr ∈ m.fetched, instr.Harmless m.registers := by
  constructor
  · intro h
    refine ⟨?_, fun instr hinstr => ?_⟩
    · by_contra hload
      obtain ⟨why, hcrash⟩ := crashed_of_not_loadRegValid debug hload
      rwa [hcrash] at h
    · by_contra hharm
      obtain ⟨why, hcrash⟩ := crashed_of_not_harmless debug hinstr hharm
      rwa [hcrash] at h
  · rintro ⟨hload, hharm⟩
    have hends := oneInstruction_ends debug (iff_of_true hload trivial) fun _ => hharm
    cases h : oneInstruction debug m with
    | crashed why =>
      rw [h] at hends
      exact hends trivial
    | done a m' => trivial
    | trapped e m' => trivial

/-- `LoadReg` goes on to have the number of a register, whatever is executed. -/
theorem loadRegValid_oneInstruction (hm : LoadRegValid m) :
    (oneInstruction debug m).Meets LoadRegValid LoadRegValid True := by
  by_cases hharm : ∀ instr ∈ m.fetched, instr.Harmless m.registers
  · have hends := oneInstruction_ends debug (iff_of_true hm trivial) fun _ => hharm
    cases h : oneInstruction debug m with
    | done a m' =>
      rw [h] at hends
      exact hends.mpr trivial
    | trapped e m' =>
      rw [h] at hends
      exact hends.2
    | crashed why => trivial
  · push Not at hharm
    obtain ⟨instr, hinstr, hharm⟩ := hharm
    obtain ⟨why, hcrash⟩ := crashed_of_not_harmless debug hinstr hharm
    rw [hcrash]
    trivial

/-- A machine with one page, that has `word` at address `0` to execute. -/
def sample (word : BitVec 32) (r : Registers) : Machine where
  registers := r
  memory := ⟨Bytes.store (fun _ => 0) 0 (Bytes.ofWord word),
    fun p => ⟨p, p, true, false, false, false⟩, 1⟩

/-- `LWL r1,1(r0)`, and `DIV r1,r2` of the smallest `int` by `-1`. -/
theorem oneInstruction_crashes :
    (∀ word r, ∀ p < (sample word r).memory.pageTableSize.toNat,
      ((sample word r).memory.pageTable p).physicalPage < NumPhysPages) ∧
    ¬Returns (oneInstruction false (sample 0x88010001 fun _ => 0)) ∧
    ¬Returns (oneInstruction false
      (sample 0x0022001a fun i => if i = 1 then SIGN_BIT else if i = 2 then -1 else 0)) := by
  have hload : oneInstruction false (sample 0x88010001 fun _ => 0) = .crashed .assertFailed := rfl
  have hdiv : oneInstruction false
      (sample 0x0022001a fun i => if i = 1 then SIGN_BIT else if i = 2 then -1 else 0) =
      .crashed .divisionFault := rfl
  refine ⟨fun word r p hp => ?_, ?_, ?_⟩
  · have : p < 1 := hp
    have : p = 0 := by omega
    subst this
    show ((0 : ℕ) : Int) < NumPhysPages
    decide
  · rw [hload]
    exact id
  · rw [hdiv]
    exact id

end Machine

end Nachos.Mips
