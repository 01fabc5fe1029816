import Nachos.Lib.Separation
import Nachos.Machine.FlatMemory

/-!
# What a user program can reach

A program reaches physical memory through the page table only. An instruction looks at and changes
nothing but the registers, the page table, and the frames that are in it.
-/
namespace Nachos

open Bytes (Byte)

/-- The frame of a page, as `Translate` computes it. -/
def TranslationEntry.pageFrame (e : TranslationEntry) : ℕ := (BitVec.ofInt 32 e.physicalPage).toNat

namespace Mips

/-- What the processor has of one process. -/
structure Context where
  registers : Registers
  pageTable : ℕ → TranslationEntry
  pageTableSize : BitVec 32

/-- The frame of a place in `mainMemory` is in the page table. -/
def Context.Owns (c : Context) (p : Int) : Prop :=
  ∃ vpn < c.pageTableSize.toNat, (c.pageTable vpn).valid = true ∧
    p / PageSize = (c.pageTable vpn).pageFrame

namespace Machine

open TrapM (gets update crash)
open Registers
open Layout (Local EndsAlike)

variable {α : Type} {m m' : Machine} {a v : BitVec 32} {size : ℕ} {writing : Bool}

def context (m : Machine) : Context := ⟨m.registers, m.memory.pageTable, m.memory.pageTableSize⟩

/-- A process has its registers and its page table, and the frames in that. -/
def layout : Layout Machine Context Int Byte where
  priv := context
  mem m := m.memory.mainMemory
  join c mem := ⟨c.registers, ⟨mem, c.pageTable, c.pageTableSize⟩⟩
  owns := Context.Owns
  priv_join _ _ := rfl
  mem_join _ _ := rfl

theorem alike_iff : layout.Alike m m' ↔ m.registers = m'.registers ∧
    m.memory.pageTable = m'.memory.pageTable ∧ m.memory.pageTableSize = m'.memory.pageTableSize ∧
    ∀ p, m.context.Owns p → m.memory.mainMemory p = m'.memory.mainMemory p := by
  constructor
  · rintro ⟨hpriv, hmem⟩
    obtain ⟨hr, ht, hs⟩ := Context.mk.inj hpriv
    exact ⟨hr, ht, hs, hmem⟩
  · rintro ⟨hr, ht, hs, hmem⟩
    exact ⟨Context.mk.injEq .. ▸ ⟨hr, ht, hs⟩, hmem⟩

/-! ## Registers -/

theorem local_registers (f : Registers → Registers) :
    Local layout (update fun m => { m with registers := f m.registers } : SimM Unit) := by
  refine Layout.local_update (fun m m' h => ?_) fun m => ⟨fun _ => Iff.rfl, fun _ _ => rfl⟩
  obtain ⟨hr, ht, hs, hmem⟩ := alike_iff.mp h
  exact alike_iff.mpr ⟨congrArg f hr, ht, hs, hmem⟩

instance (i : Fin NumTotalRegs) : Local layout (readReg i) := by
  refine Layout.local_gets fun m m' h => ?_
  rw [(alike_iff.mp h).1]

instance (i : Fin NumTotalRegs) (v : BitVec 32) : Local layout (writeReg i v) :=
  local_registers fun r => r.writeRegister i v

instance (nextReg nextValue : BitVec 32) : Local layout (delayedLoad nextReg nextValue) := by
  refine ⟨fun m m' h => ?_, fun m => ?_⟩
  · obtain ⟨hr, ht, hs, hmem⟩ := alike_iff.mp h
    unfold delayedLoad
    rw [hr]
    split
    · exact .done () (alike_iff.mpr ⟨rfl, ht, hs, hmem⟩)
    · exact .crashed _
  · unfold delayedLoad
    split
    · exact ⟨fun _ => Iff.rfl, fun _ _ => rfl⟩
    · trivial

instance (p : Prop) [Decidable p] : Local layout (assert p) := by
  unfold assert
  infer_instance

instance (which : ExceptionType) (badVAddr : BitVec 32) :
    Local layout (raiseException which badVAddr : SimM α) := by
  have htrap : Local layout (fun m => .trapped which m : SimM α) :=
    ⟨fun _ _ h => .trapped which h, fun _ => .refl _⟩
  unfold raiseException
  infer_instance

/-! ## Memory -/

/-- What a translation that is not refused has found. -/
theorem translate_ok {pageTable : ℕ → TranslationEntry} {pageTableSize phys : BitVec 32}
    {entry : TranslationEntry}
    (h : Nachos.translate pageTable pageTableSize a size writing = .ok (phys, entry)) :
    ¬((size = 4 ∧ a &&& 3 ≠ 0) ∨ (size = 2 ∧ a &&& 1 ≠ 0)) ∧
      a.toNat / PageSize < pageTableSize.toNat ∧
      (pageTable (a.toNat / PageSize)).valid = true ∧
      phys.toNat = (pageTable (a.toNat / PageSize)).pageFrame * PageSize + a.toNat % PageSize ∧
      phys.toNat < MemorySize ∧ entry = (pageTable (a.toNat / PageSize)).touch writing := by
  simp only [Nachos.translate] at h
  split at h
  · cases h
  next halign =>
  split at h
  · cases h
  next hpage =>
  split at h
  · cases h
  next hvalid =>
  split at h
  · cases h
  split at h
  · cases h
  next hframe =>
  have hlt := Nat.mod_lt a.toNat (show 0 < PageSize by decide)
  simp only [Except.ok.injEq, Prod.mk.injEq] at h
  obtain ⟨hphys, hentry⟩ := h
  have hphys : phys.toNat = (pageTable (a.toNat / PageSize)).pageFrame * PageSize +
      a.toNat % PageSize := by
    rw [← hphys, TranslationEntry.pageFrame]
    simp only [BitVec.toNat_add, BitVec.toNat_mul, BitVec.toNat_ofNat]
    simp only [PageSize, NumPhysPages] at hlt hframe ⊢
    omega
  refine ⟨halign, Nat.lt_of_not_le hpage, by simpa using hvalid, hphys, ?_, hentry.symm⟩
  rw [hphys, TranslationEntry.pageFrame]
  simp only [PageSize, NumPhysPages, MemorySize] at hlt hframe ⊢
  omega

/-- The use and dirty bits do not matter. -/
theorem owns_touch (k : ℕ) (p : Int) : Context.Owns ⟨m.registers, Function.update m.memory.pageTable k
    ((m.memory.pageTable k).touch writing), m.memory.pageTableSize⟩ p ↔ m.context.Owns p := by
  have hentry : ∀ vpn, (Function.update m.memory.pageTable k
      ((m.memory.pageTable k).touch writing) vpn).valid = (m.memory.pageTable vpn).valid ∧
      (Function.update m.memory.pageTable k
        ((m.memory.pageTable k).touch writing) vpn).pageFrame =
        (m.memory.pageTable vpn).pageFrame := by
    intro vpn
    by_cases hk : vpn = k
    · subst hk
      rw [Function.update_self]
      exact ⟨rfl, rfl⟩
    · rw [Function.update_of_ne hk]
      exact ⟨rfl, rfl⟩
  simp only [Context.Owns, context, hentry]

/-- The frame of a place that `Translate` returns. -/
theorem owns_of_translate {phys : BitVec 32} {entry : TranslationEntry} (hsize : AccessSize size)
    (h : Nachos.translate m.memory.pageTable m.memory.pageTableSize a size writing =
      .ok (phys, entry)) {i : ℕ} (hi : i < size) : m.context.Owns (phys.toInt + i) := by
  obtain ⟨halign, hpage, hvalid, hphys, hlt, -⟩ := translate_ok h
  have haligned : a.toNat % size = 0 := by
    by_contra hne
    exact halign ((misaligned_iff hsize).mpr hne)
  refine ⟨_, hpage, hvalid, ?_⟩
  have hint : phys.toInt = phys.toNat := by
    rw [BitVec.toInt_eq_toNat_of_lt]
    simp only [MemorySize, NumPhysPages, PageSize] at hlt
    omega
  rw [hint, hphys]
  show _ = ((m.memory.pageTable (a.toNat / PageSize)).pageFrame : Int)
  generalize (m.memory.pageTable (a.toNat / PageSize)).pageFrame = frame
  simp only [PageSize]
  rcases hsize with rfl | rfl | rfl <;> omega

instance (a : BitVec 32) (size : ℕ) (writing : Bool) : Local layout (translate a size writing) := by
  refine ⟨fun m m' h => ?_, fun m => ?_⟩
  · obtain ⟨hr, ht, hs, hmem⟩ := alike_iff.mp h
    unfold translate
    rw [ht, hs]
    split
    · exact Layout.Local.alike m m' h
    · next phys entry htrans =>
      split
      · refine .done _ (alike_iff.mpr ⟨hr, rfl, hs, fun p hp => hmem p ?_⟩)
        obtain ⟨-, -, -, -, -, rfl⟩ := translate_ok htrans
        rw [← ht] at hp
        exact (owns_touch _ p).mp hp
      · exact .crashed _
  · unfold translate
    split
    · exact Layout.Local.kept m
    · next phys entry htrans =>
      split
      · obtain ⟨-, -, -, -, -, rfl⟩ := translate_ok htrans
        exact ⟨fun p => owns_touch (m := m) (a.toNat / PageSize) p, fun _ _ => rfl⟩
      · trivial

/-- An access by `ReadMem` or `WriteMem` stays within the frames of the process. -/
theorem owns_of_done {p : Int} (hsize : AccessSize size)
    (h : translate a size writing m = .done p m') : ∀ i < size, m'.context.Owns (p + i) := by
  unfold translate at h
  split at h
  · rw [raiseException_apply] at h
    split at h <;> cases h
  · next phys entry htrans =>
    split at h
    · cases h
      obtain ⟨-, -, -, -, -, rfl⟩ := translate_ok htrans
      exact fun i hi => (owns_touch _ _).mpr (owns_of_translate hsize htrans hi)
    · cases h

theorem local_readMem (hsize : AccessSize size) (a : BitVec 32) :
    Local layout (readMem a size) := by
  unfold readMem
  refine Layout.local_bind (P := fun p m => ∀ i < size, m.context.Owns (p + i))
    (fun m p m' h => owns_of_done hsize h) (fun p m m' hm _ h => ?_) fun p m _ => ?_
  · obtain ⟨-, -, -, hmem⟩ := alike_iff.mp h
    have hbyte : ∀ i < size, m.memory.mainMemory (p + i) = m'.memory.mainMemory (p + i) :=
      fun i hi => hmem _ (hm i hi)
    have hzero : 0 < size → m.memory.mainMemory p = m'.memory.mainMemory p := by
      intro hpos
      simpa using hbyte 0 hpos
    rcases hsize with rfl | rfl | rfl
    · show EndsAlike _ (.done ((m.memory.mainMemory p).signExtend 32) m)
        (.done ((m'.memory.mainMemory p).signExtend 32) m')
      rw [hzero (by decide)]
      exact .done _ h
    · show EndsAlike _ (.done ((m.memory.mainMemory (p + 1) ++ m.memory.mainMemory p).zeroExtend 32) m)
        (.done ((m'.memory.mainMemory (p + 1) ++ m'.memory.mainMemory p).zeroExtend 32) m')
      have hone : m.memory.mainMemory (p + 1) = m'.memory.mainMemory (p + 1) :=
        hbyte 1 (by decide)
      rw [hzero (by decide), hone]
      exact .done _ h
    · show EndsAlike _ (.done (m.memory.mainMemory (p + 3) ++ m.memory.mainMemory (p + 2) ++
          m.memory.mainMemory (p + 1) ++ m.memory.mainMemory p) m)
        (.done (m'.memory.mainMemory (p + 3) ++ m'.memory.mainMemory (p + 2) ++
          m'.memory.mainMemory (p + 1) ++ m'.memory.mainMemory p) m')
      have hone : m.memory.mainMemory (p + 1) = m'.memory.mainMemory (p + 1) :=
        hbyte 1 (by decide)
      have htwo : m.memory.mainMemory (p + 2) = m'.memory.mainMemory (p + 2) :=
        hbyte 2 (by decide)
      have hthree : m.memory.mainMemory (p + 3) = m'.memory.mainMemory (p + 3) :=
        hbyte 3 (by decide)
      rw [hzero (by decide), hone, htwo, hthree]
      exact .done _ h
  · rcases hsize with rfl | rfl | rfl <;> exact Layout.Kept.refl m

theorem store_congr {f g : Bytes.Memory} {p x : Int} (bs : List Byte) (h : f x = g x) :
    Bytes.store f p bs x = Bytes.store g p bs x := by
  unfold Bytes.store
  rw [h]

theorem local_writeMem (hsize : AccessSize size) (a v : BitVec 32) :
    Local layout (writeMem a size v) := by
  unfold writeMem
  have hlen := length_take_ofWord (v := v) hsize
  refine Layout.local_bind (P := fun p m => ∀ i < size, m.context.Owns (p + i))
    (fun m p m' h => owns_of_done hsize h) (fun p m m' hm _ h => ?_) fun p m hm => ?_
  · obtain ⟨hr, ht, hs, hmem⟩ := alike_iff.mp h
    rw [if_pos hsize]
    refine .done () (alike_iff.mpr ⟨hr, ht, hs, fun x hx => ?_⟩)
    exact store_congr _ (hmem x hx)
  · rw [if_pos hsize]
    refine ⟨fun _ => Iff.rfl, fun x hx => ?_⟩
    refine Bytes.store_of_not_mem (by_contra fun hin => hx ?_)
    rw [hlen] at hin
    have hown := hm (x - p).toNat (by omega)
    rwa [show p + ((x - p).toNat : Int) = x by omega] at hown

/-! ## Instructions -/

instance (a : BitVec 32) : Local layout (readMem a 1) := local_readMem (.inl rfl) a
instance (a : BitVec 32) : Local layout (readMem a 2) := local_readMem (.inr (.inl rfl)) a
instance (a : BitVec 32) : Local layout (readMem a 4) := local_readMem (.inr (.inr rfl)) a
instance (a v : BitVec 32) : Local layout (writeMem a 1 v) := local_writeMem (.inl rfl) a v
instance (a v : BitVec 32) : Local layout (writeMem a 2 v) := local_writeMem (.inr (.inl rfl)) a v
instance (a v : BitVec 32) : Local layout (writeMem a 4 v) := local_writeMem (.inr (.inr rfl)) a v

variable (instr : Instruction) (pcAfter : BitVec 32)

instance : Local layout (effectiveAddr instr) := by
  unfold effectiveAddr
  infer_instance

instance (f : BitVec 32 → BitVec 32 → BitVec 32) : Local layout (alu instr pcAfter f) := by
  unfold alu
  infer_instance

instance (f : BitVec 32 → BitVec 32 → BitVec 32) : Local layout (aluImm instr pcAfter f) := by
  unfold aluImm
  infer_instance

instance (taken : Bool) (extra : BitVec 32) : Local layout (branchIf taken pcAfter extra) := by
  unfold branchIf
  infer_instance

instance (i : Fin NumTotalRegs) : Local layout (link i) := by
  unfold link
  infer_instance

instance (signed : Bool) : Local layout (loadHalf instr pcAfter signed) := by
  unfold loadHalf
  infer_instance

instance (rt : Fin 32) : Local layout (loadedSoFar rt) := by
  unfold loadedSoFar
  infer_instance

instance (signedArith : Bool) : Local layout (multiply instr pcAfter signedArith) := by
  unfold multiply
  infer_instance

instance (rs rt : BitVec 32) : Local layout (divide rs rt) := by
  unfold divide
  infer_instance

instance : Local layout (store instr pcAfter 1) := by
  unfold store
  infer_instance

instance : Local layout (store instr pcAfter 2) := by
  unfold store
  infer_instance

instance : Local layout (store instr pcAfter 4) := by
  unfold store
  infer_instance

instance : Local layout (execute instr pcAfter) := by
  unfold execute
  split <;> infer_instance

instance (debug : Bool) : Local layout (fetchExecute debug) := by
  unfold fetchExecute
  infer_instance

instance (rest : Rest) : Local layout (complete rest) := by
  unfold complete
  infer_instance

instance (debug : Bool) : Local layout (oneInstruction debug) := by
  unfold oneInstruction
  infer_instance

end Machine

end Mips

end Nachos
