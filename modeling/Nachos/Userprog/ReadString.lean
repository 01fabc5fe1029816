import Nachos.Userprog.ReadConsole

/-!
# Reading a string

`Exception_ReadString` declares its buffer as a pointer and never sets it. Where the pointer leads
to memory that can be written, what it stores for the program is the line all the same, if nothing
else needs these bytes; elsewhere the simulator dies of a fault.
-/
namespace Nachos

open Bytes (Byte)
open Command (onSecond)
open ConsoleRead (typed line terminator Answered endsLine)
open UserMemory (Touched Stored SameMap)

/-- A terminal, and the storage of the kernel: its bytes, which of them can be written, the blocks
that `new` has given to the call, with their sizes, and the addresses at which the call has used
its buffer. -/
structure StringKernel extends Terminal where
  bytes : ℕ → Byte
  writable : ℕ → Bool
  blocks : List (ℕ × ℕ)
  used : List ℕ

namespace StringKernel

instance : HasMemory StringKernel where
  memory s := s.memory
  setMemory s u := { s with memory := u }
  memory_setMemory _ _ := rfl
  setMemory_setMemory _ _ _ := rfl
  setMemory_memory _ := rfl

def onTerminal {α : Type} (c : Command Terminal α) : Command StringKernel α := fun s =>
  (c s.toTerminal).map fun r => (r.1, { s with toTerminal := r.2 })

/-- `bs` is stored in a buffer at `p`. -/
def fill (p : ℕ) (bs : List Byte) (s : StringKernel) : StringKernel :=
  { s with
    bytes := fun a => if p ≤ a ∧ a < p + bs.length then bs.getD (a - p) 0 else s.bytes a
    used := s.used ++ List.range' p bs.length }

/-- All addresses of a buffer at `p` can be written. -/
def canWrite (s : StringKernel) (p : ℕ) (numBytes : BitVec 32) : Bool :=
  (List.range' p numBytes.toInt.toNat).all s.writable

/-- `SynchConsole::Read` into a buffer at `p`. It uses every index below the count: it clears them
all before it reads, and does not survive one that cannot be written. -/
def consoleRead (ch : Byte) (p : ℕ) (numBytes : BitVec 32) :
    Command StringKernel (BitVec 32 × List Byte) := fun s =>
  if s.canWrite p numBytes then
    (Terminal.consoleRead ch numBytes s.toTerminal).map fun r =>
      (r.1, fill p r.1.2 { s with toTerminal := r.2 })
  else none

/-- The kernel when the uninitialised `buffer` of `Exception_ReadString` happens to be `p`. -/
def services (ch : Byte) (p : ℕ) : Services StringKernel :=
  { Services.silent with
    readMem := fun addr => onTerminal ((Terminal.services ch).readMem addr)
    writeMem := fun addr value => onTerminal ((Terminal.services ch).writeMem addr value)
    consoleRead := consoleRead ch p }

/-- Every address used is in a block that was allocated for the call. -/
def InStorage (s : StringKernel) : Prop :=
  ∀ a ∈ s.used, ∃ block ∈ s.blocks, block.1 ≤ a ∧ a < block.1 + block.2

/-- A system call begins. -/
def enter (s : Terminal) (bytes : ℕ → Byte) (writable : ℕ → Bool) : StringKernel where
  toTerminal := s
  bytes := bytes
  writable := writable
  blocks := []
  used := []

theorem writesMemory (ch : Byte) (p : ℕ) : (services ch p).WritesMemory := by
  intro addr value s
  have h := Terminal.writesMemory ch addr value s.toTerminal
  show ((Terminal.services ch).writeMem addr value s.toTerminal).map _ = _
  rw [h]
  have hmemory : HasMemory.memory s.toTerminal = s.memory := rfl
  have hmemory' : HasMemory.memory s = s.memory := rfl
  rw [hmemory, hmemory']
  cases hw : s.memory.writeByte addr value <;> simp [HasMemory.setMemory]

end StringKernel

/-- A program calls `ReadString`, with a buffer that is there. -/
structure StringCall (r : Registers) (s : Terminal) : Prop where
  code : r 2 = 15
  maxLength : 1 ≤ (r 5).toInt
  injective : s.memory.Injective
  buffer : s.memory.Buffer (r 4) (r 5).toNat true
  typed : ∀ c ∈ line (r 5).toNat s.input, c ≠ 0

/-- The line has been stored, and no byte but those of the line and one behind it has changed. -/
structure LineStored (r : Registers) (s s' : Terminal) : Prop where
  line : ∀ j < (line (r 5).toNat s.input).length,
    s'.memory.byte (r 4 + BitVec.ofNat 32 j) = (line (r 5).toNat s.input).getD j 0
  others : ∀ a, s.memory.Mapped a false →
    (∀ j ≤ min (ConsoleRead.line (r 5).toNat s.input).length ((r 5).toNat - 1),
      a ≠ r 4 + BitVec.ofNat 32 j) → s'.memory.byte a = s.memory.byte a

variable {s : Terminal} {r : Registers} {bs : List Byte} {n p : ℕ} {writable : ℕ → Bool}

/-- What `System2User` copies of a line with zeros behind it. -/
theorem upToZero_line (hz : ∀ c ∈ bs, c ≠ 0) (n : ℕ) :
    Bytes.upToZero (bs ++ List.replicate n 0) = bs ++ List.replicate (min n 1) 0 := by
  induction bs with
  | nil =>
    cases n with
    | zero => rfl
    | succ n => simp [Bytes.upToZero, List.replicate_succ]
  | cons c bs ih =>
    rw [List.cons_append, Bytes.upToZero, if_neg (hz c (by simp)), ih fun c hc => hz c (by simp [hc])]
    rfl

namespace StringKernel

theorem canWrite_enter {numBytes : BitVec 32} (bytes : ℕ → Byte) :
    (enter s bytes writable).canWrite p numBytes = true ↔
      ∀ i < numBytes.toInt.toNat, writable (p + i) = true := by
  rw [canWrite, List.all_eq_true]
  constructor
  · intro h i hi
    exact h (p + i) (List.mem_range'_1.mpr (by omega))
  · intro h a ha
    obtain ⟨hle, hlt⟩ := List.mem_range'_1.mp ha
    have := h (a - p) (by omega)
    rwa [Nat.add_sub_cancel' hle] at this

/-- The handler where the pointer leads to memory that cannot be written. -/
theorem exceptionReadString_of_fault (ch : Byte) (bytes : ℕ → Byte)
    (hw : ¬∀ i < (r 5).toInt.toNat, writable (p + i) = true) :
    (services ch p).exceptionReadString (r, enter s bytes writable) = none := by
  have hread : onSecond ((services ch p).consoleRead (r 5)) (r, enter s bytes writable) = none :=
    Command.onSecond_of_none (if_neg (mt (canWrite_enter bytes).mp hw))
  unfold Services.exceptionReadString
  rw [Command.bind_of_some rfl, Command.bind_of_some rfl, Command.bind_of_none hread]

/-- The handler on a line. -/
theorem exceptionReadString_spec (h : StringCall r s) (ha : Answered (r 5).toNat s.input) (ch : Byte)
    (bytes : ℕ → Byte) (hw : ∀ i < (r 5).toInt.toNat, writable (p + i) = true) :
    ∃ s', (services ch p).exceptionReadString (r, enter s bytes writable) = some ((), r, s') ∧
      Stored s.memory s'.memory (r 4) 0 (line (r 5).toNat s.input ++
        List.replicate (min ((r 5).toNat - (line (r 5).toNat s.input).length) 1) 0) ∧
      s'.blocks = [] ∧ s'.used = List.range' p (r 5).toNat := by
  have hcount := h.maxLength
  have hint := (Word.toNat_of_nonneg (x := r 5) (by omega)).1
  have hline := Terminal.length_line_le (r 5).toNat s.input
  obtain ⟨call, rest, hrun, hinto, -⟩ := ConsoleRead.readFrom_start (n := (r 5).toNat) (by omega) ch ha
  have hlength : call.into.length = (r 5).toNat := by
    rw [hinto, List.length_append, List.length_replicate]
    omega
  have hterminal : Terminal.consoleRead ch (r 5) s =
      some ((BitVec.ofInt 32 call.result, call.into), { s with input := rest }) := by
    rw [Terminal.consoleRead, hint, hrun]
    rfl
  have hread : onSecond ((services ch p).consoleRead (r 5)) (r, enter s bytes writable) =
      some ((BitVec.ofInt 32 call.result, call.into), r,
        fill p call.into (enter { s with input := rest } bytes writable)) := by
    refine Command.onSecond_of_some ((if_pos ((canWrite_enter bytes).mpr hw)).trans ?_)
    show (Terminal.consoleRead ch (r 5) s).map _ = _
    rw [hterminal]
    rfl
  obtain ⟨u, m, hcopy, hstored⟩ := Services.system2User_spec (writesMemory ch p) (r := r)
    (s := fill p call.into (enter { s with input := rest } bytes writable)) h.injective h.buffer
    call.into
  refine ⟨HasMemory.setMemory (fill p call.into (enter { s with input := rest } bytes writable)) u,
    ?_, ?_, rfl, ?_⟩
  · unfold Services.exceptionReadString
    rw [Command.bind_of_some rfl, Command.bind_of_some rfl, Command.bind_of_some hread,
      Command.bind_of_some hcopy]
    rfl
  · have hbuffer : ((List.range (r 5).toNat).map fun j => (call.into ++ []).getD j 0) =
        call.into := Devices.map_getD_append hlength
    rw [List.append_nil] at hbuffer
    rw [hbuffer, hinto, upToZero_line h.typed] at hstored
    exact hstored
  · show [] ++ List.range' p call.into.length = _
    rw [hlength, List.nil_append]

end StringKernel

/-- `ReadString` has come back with the line stored, and has used its buffer only where it had
allocated it. -/
def ReadsString (ch : Byte) (p fuel : ℕ) (bytes : ℕ → Byte) (writable : ℕ → Bool) (r : Registers)
    (s : Terminal) : Prop :=
  ∃ r' s', (StringKernel.services ch p).exceptionHandler fuel .SyscallException
      (r, .enter s bytes writable) = some ((), r', s') ∧
    LineStored r s s'.toTerminal ∧ s'.InStorage

/-- Where the uninitialised pointer leads to memory that can be written the program gets its line.
But that is never storage of the call, and elsewhere the call does not come back. -/
theorem readString_never (h : StringCall r s) (ha : Answered (r 5).toNat s.input) (ch : Byte)
    (p fuel : ℕ) (bytes : ℕ → Byte) (writable : ℕ → Bool) :
    ((∀ i < (r 5).toInt.toNat, writable (p + i) = true) →
      ∃ r' s', (StringKernel.services ch p).exceptionHandler fuel .SyscallException
        (r, .enter s bytes writable) = some ((), r', s') ∧ LineStored r s s'.toTerminal) ∧
    ¬ReadsString ch p fuel bytes writable r s := by
  have hcount := h.maxLength
  have hint := (Word.toNat_of_nonneg (x := r 5) (by omega)).1
  have hline := Terminal.length_line_le (r 5).toNat s.input
  have hhandler : (StringKernel.services ch p).handlerOf fuel (r 2).toNat =
      some (StringKernel.services ch p).exceptionReadString := by
    rw [h.code]
    rfl
  by_cases hw : ∀ i < (r 5).toInt.toNat, writable (p + i) = true
  · obtain ⟨s', hrun, hstored, hblocks, hused⟩ :=
      StringKernel.exceptionReadString_spec h ha ch bytes hw
    have hreturn := Services.exceptionHandler_of_some hhandler hrun
    refine ⟨fun _ => ⟨_, s', hreturn, fun j hj => ?_, fun a hmap hne => ?_⟩, ?_⟩
    · rw [hstored.byte_written (by rw [List.length_append]; omega), List.getD_append _ _ _ _ hj]
    · refine hstored.byte_rest h.injective h.buffer ?_ hmap fun j hj => hne j ?_
      · rw [List.length_append, List.length_replicate]
        omega
      · rw [List.length_append, List.length_replicate] at hj
        omega
    · rintro ⟨r', s₁, hrun', -, hin⟩
      rw [hreturn] at hrun'
      cases hrun'
      -- the first byte of the buffer is used, and nothing is allocated
      obtain ⟨block, hmem, -⟩ := hin p (by rw [hused, List.mem_range'_1]; omega)
      rw [hblocks] at hmem
      cases hmem
  · refine ⟨fun hall => absurd hall hw, ?_⟩
    rintro ⟨r', s₁, hrun, -, -⟩
    rw [Services.exceptionHandler_of_none hhandler
      (StringKernel.exceptionReadString_of_fault ch bytes hw)] at hrun
    cases hrun

theorem stringCall_sample (input : List Byte) (hz : ∀ c ∈ line 3 input, c ≠ 0) :
    StringCall (callRegisters 15 0 3 0) (.sample (fun _ => 32) input) where
  code := rfl
  maxLength := by decide
  injective := Devices.sample_injective _ _ _
  buffer := Devices.sample_buffer _ _ _ (by decide) _
  typed := hz

/-- A page of the host that can be written. -/
def hostPage (a : ℕ) : Bool := 4096 ≤ a && a < 8192

theorem readString_never_line :
    (∃ r' s', (StringKernel.services 0 4096).exceptionHandler 0 .SyscallException
        (callRegisters 15 0 3 0, .enter (.sample (fun _ => 32) [72, 105, 10]) (fun _ => 0)
          hostPage) = some ((), r', s') ∧
      LineStored (callRegisters 15 0 3 0) (.sample (fun _ => 32) [72, 105, 10]) s'.toTerminal) ∧
    ¬ReadsString 0 4096 0 (fun _ => 0) hostPage (callRegisters 15 0 3 0)
      (.sample (fun _ => 32) [72, 105, 10]) := by
  have h := readString_never (stringCall_sample [72, 105, 10] (by decide)) (.inr (by decide)) 0 4096
    0 (fun _ => 0) hostPage
  exact ⟨h.1 (by decide), h.2⟩

/-- One character, and a pointer that leads to a page of the host. -/
theorem readString_fails : ¬ReadsString 0 4096 0 (fun _ => 0) hostPage (callRegisters 15 0 1 0)
    (.sample (fun _ => 32) [65]) := by
  rintro ⟨r', s', hrun, -, hin⟩
  have hstorage : ((StringKernel.services 0 4096).exceptionHandler 0 .SyscallException
      (callRegisters 15 0 1 0, .enter (.sample (fun _ => 32) [65]) (fun _ => 0) hostPage)).map
        (fun a => (a.2.2.used, a.2.2.blocks)) = some ([4096], []) := by decide +kernel
  rw [hrun, Option.map_some, Option.some.injEq, Prod.mk.injEq] at hstorage
  obtain ⟨block, hmem, -⟩ := hin 4096 (by rw [hstorage.1]; decide)
  rw [hstorage.2] at hmem
  cases hmem

end Nachos
