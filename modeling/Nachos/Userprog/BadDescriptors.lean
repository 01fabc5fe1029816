import Nachos.Userprog.FileTransfer

/-!
# Writing to a bad descriptor

`Exception_Write` notes an error in register `2` and goes on. A descriptor outside the table
or without a file is then used, and a file that cannot be written has at least its buffer
copied.
-/
namespace Nachos

open Bytes (Byte)
open Command (onSecond)
open UserMemory (Touched)

namespace UserMemory

variable {u : UserMemory} {addr : BitVec 32} {i n : ℕ}

/-- Every byte up to the first zero can be read. -/
def Copyable (u : UserMemory) (addr : BitVec 32) (n : ℕ) : Prop :=
  ∀ j < n, (∀ i < j, u.char? (addr + BitVec.ofNat 32 i) ≠ some 0) →
    u.char? (addr + BitVec.ofNat 32 j) ≠ none

theorem copied_ne_none_iff : u.copied addr i n ≠ none ↔
    ∀ j < n, (∀ l < j, u.char? (addr + BitVec.ofNat 32 (i + l)) ≠ some 0) →
      u.char? (addr + BitVec.ofNat 32 (i + j)) ≠ none := by
  induction n generalizing i with
  | zero => simp [copied]
  | succ n ih =>
    cases hc : u.char? (addr + BitVec.ofNat 32 i) with
    | none =>
      refine iff_of_false (by simp [copied, hc]) fun h => ?_
      exact h 0 (Nat.zero_lt_succ n) (fun l hl => absurd hl (Nat.not_lt_zero l)) hc
    | some c =>
      by_cases hz : c = 0
      · subst hz
        refine iff_of_true (by simp [copied, hc]) fun j _ hj => ?_
        cases j with
        | zero => simp [hc]
        | succ j => exact absurd hc (hj 0 (Nat.zero_lt_succ j))
      · have hstep : u.copied addr i (n + 1) ≠ none ↔ u.copied addr (i + 1) n ≠ none := by
          simp only [copied, hc, bind, Option.bind_some, if_neg hz]
          cases u.copied addr (i + 1) n <;> simp
        rw [hstep, ih]
        constructor
        · intro h j hj hbefore
          cases j with
          | zero => simp [hc]
          | succ j =>
            have := h j (by omega) fun l hl => by
              have := hbefore (l + 1) (by omega)
              rwa [show i + (l + 1) = i + 1 + l by omega] at this
            rwa [show i + (j + 1) = i + 1 + j by omega]
        · intro h j hj hbefore
          have := h (j + 1) (by omega) fun l hl => by
            cases l with
            | zero => simpa [hc] using hz
            | succ l =>
              have := hbefore l (by omega)
              rwa [show i + (l + 1) = i + 1 + l by omega]
          rwa [show i + (j + 1) = i + 1 + j by omega] at this

theorem copyable_iff : u.Copyable addr n ↔ u.copied addr 0 n ≠ none := by
  simp only [copied_ne_none_iff, Nat.zero_add, Copyable]

end UserMemory

namespace Devices

/-- A descriptor that `Write` has to refuse: outside the table, empty, read-only or standard
input. -/
def Unwritable (s : Devices) (id : BitVec 32) : Prop :=
  ∀ d, s.descriptor id = some d → d.type = 1 ∨ d.type = 2

/-- No file, no position in a file and nothing on the console differs. -/
structure SameFiles (s s' : Devices) : Prop where
  files : s'.files = s.files
  disk : s'.disk = s.disk
  output : s'.output = s.output
  openf : ∀ i, (s'.openf i).map (fun d => (d.type, d.handle.position)) =
    (s.openf i).map fun d => (d.type, d.handle.position)

/-- The call is refused: it returns `-1`, and has changed nothing. -/
def Refused (old : List Byte) (fuel : ℕ) (r : Registers) (s : Devices) : Prop :=
  ∃ r' s', (services old).exceptionHandler fuel .SyscallException (r, s) = some ((), r', s') ∧
    r' 2 = -1 ∧ SameFiles s s'

variable {s : Devices} {r : Registers} {d : Descriptor} {old : List Byte} {fuel : ℕ}

/-- Without a file there is no type to look at. -/
theorem exceptionWrite_of_none (hd : s.descriptor (r 6) = none) :
    (services old).exceptionWrite (r, s) = none := by
  unfold Services.exceptionWrite
  rw [Command.bind_of_some rfl, Command.bind_of_some rfl, Command.bind_of_some rfl]
  by_cases hid : Services.inTable (r 6)
  · have hnull : s.openf (r 6).toNat = none := by simpa [descriptor, hid] using hd
    have hopenf : ∀ r' : Registers,
        onSecond ((services old).openf (r 6)) (r', s) = some (none, r', s) :=
      fun r' => Command.onSecond_of_some (by simp [services, fileType, hid, hnull])
    have htype : ∀ r', (services old).fileType (r 6) (r', s) = none := by
      intro r'
      rw [Services.fileType, Command.bind_of_some (hopenf r')]
      rfl
    rw [Command.bind_of_some (Handler.failIf_of_not (by simpa using hid) _),
      Command.bind_of_some (hopenf r), Command.bind_of_some (Handler.failIf_apply _ _)]
    exact Command.bind_of_none (htype _)
  · rw [Command.bind_of_some (Handler.failIf_apply _ _)]
    exact Command.bind_of_none (Command.onSecond_of_none (by simp [services, fileType, hid]))

/-- A file that cannot be written. -/
theorem exceptionWrite_readOnly (old : List Byte) (hd : s.descriptor (r 6) = some d)
    (htype : d.type = 1 ∨ d.type = 2) :
    (services old).exceptionWrite (r, s) =
      (services old).writeOpen (r 4) (r 5) (r 6) d.type (r.writeRegister 2 (-1), s) := by
  have hid := (descriptor_eq_some.mp hd).1
  unfold Services.exceptionWrite
  rw [Command.bind_of_some rfl, Command.bind_of_some rfl, Command.bind_of_some rfl,
    Command.bind_of_some (Handler.failIf_of_not (by simpa using hid) _),
    Command.bind_of_some (openf_spec hd old),
    Command.bind_of_some (Handler.failIf_of_not (by simp) _),
    Command.bind_of_some (fileType_spec hd old),
    Command.bind_of_some (Handler.failIf_apply _ _), if_pos htype]

/-- `Write` after its checks, on a file that it does not write: it asks for the position and
copies the buffer. -/
theorem writeOpen_of_some (old : List Byte) (r' : Registers) (hd : s.descriptor (r 6) = some d)
    (htype : d.type = 1 ∨ d.type = 2) (hl : 0 ≤ (r 5 + 1).toInt)
    (hcopy : s.memory.copied (r 4) 0 (r 5).toInt.toNat ≠ none) : ∃ u,
      (services old).writeOpen (r 4) (r 5) (r 6) d.type (r', s) =
        some ((), r', { s.setHandle (r 6) d d.handle.synced with memory := u }) := by
  have hne : d.type ≠ 0 ∧ d.type ≠ 3 := by
    rcases htype with h | h <;> rw [h] <;> decide
  obtain ⟨bs, hbs⟩ := Option.ne_none_iff_exists'.mp hcopy
  have hpos : onSecond ((services old).getCurrentPos (r 6)) (r', s) = _ :=
    Command.onSecond_of_some (getCurrentPos_spec hd)
  obtain ⟨u, htemp, -⟩ := Services.user2System_of_some (readsMemory old)
    (s := s.setHandle (r 6) d d.handle.synced) (r := r') hl hbs
  refine ⟨u, ?_⟩
  rw [Services.writeOpen, Command.bind_of_some hpos, Command.bind_of_some htemp, if_neg hne.1,
    if_neg hne.2]
  rfl

/-- It does not come back from a buffer that it cannot copy. -/
theorem writeOpen_of_none {r' : Registers} (hd : s.descriptor (r 6) = some d)
    (h : (r 5 + 1).toInt < 0 ∨ s.memory.copied (r 4) 0 (r 5).toInt.toNat = none) :
    (services old).writeOpen (r 4) (r 5) (r 6) d.type (r', s) = none := by
  have hpos : onSecond ((services old).getCurrentPos (r 6)) (r', s) = _ :=
    Command.onSecond_of_some (getCurrentPos_spec hd)
  rw [Services.writeOpen, Command.bind_of_some hpos]
  refine Command.bind_of_none ?_
  rw [Services.user2System]
  rcases h with h | h
  · rw [if_pos h]
    rfl
  · split
    · rfl
    · exact Command.bind_of_none (Services.copyIn_of_none (readsMemory old)
        (s := s.setHandle (r 6) d d.handle.synced) h)

/-- `GetCurrentPos` moves no position. -/
theorem sameFiles_synced (hd : s.descriptor (r 6) = some d) (u : UserMemory) :
    SameFiles s { s.setHandle (r 6) d d.handle.synced with memory := u } := by
  refine ⟨rfl, rfl, rfl, fun i => ?_⟩
  have hopen := (descriptor_eq_some.mp hd).2
  by_cases hi : i = (r 6).toNat
  · simp [setHandle, hi, hopen]
  · simp [setHandle, hi]

/-- `Write` refuses every bad descriptor exactly if that is one of an open file, and the buffer
can be copied all the same. -/
theorem write_refuses_iff (old : List Byte) (fuel : ℕ) (r : Registers) (s : Devices)
    (hcode : r 2 = 7) : (s.Unwritable (r 6) → Refused old fuel r s) ↔
      (s.Unwritable (r 6) → s.descriptor (r 6) ≠ none ∧ 0 ≤ (r 5 + 1).toInt ∧
        s.memory.Copyable (r 4) (r 5).toInt.toNat) := by
  have hhandler : (services old).handlerOf fuel (r 2).toNat = some (services old).exceptionWrite := by
    rw [hcode]
    rfl
  refine imp_congr_right fun hbad => ?_
  rw [UserMemory.copyable_iff]
  cases hd : s.descriptor (r 6) with
  | none =>
    refine iff_of_false ?_ fun h => h.1 rfl
    rintro ⟨r', s', hrun, -⟩
    rw [Services.exceptionHandler_of_none hhandler (exceptionWrite_of_none hd)] at hrun
    cases hrun
  | some d =>
    have htype := hbad d hd
    have heq := exceptionWrite_readOnly old hd htype
    constructor
    · rintro ⟨r', s', hrun, -⟩
      refine ⟨nofun, ?_⟩
      by_contra hn
      rw [not_and_or, not_le, not_not] at hn
      rw [Services.exceptionHandler_of_none hhandler (heq.trans (writeOpen_of_none hd hn))] at hrun
      cases hrun
    · rintro ⟨-, hl, hcopy⟩
      obtain ⟨u, hopen⟩ := writeOpen_of_some old (r.writeRegister 2 (-1)) hd htype hl hcopy
      refine ⟨_, _, Services.exceptionHandler_of_some hhandler (heq.trans hopen),
        result_increase r (-1), sameFiles_synced hd u⟩

/-- A program of four pages with a file that it may only read, as descriptor `2`. -/
def readOnlyFile : Devices := sample (fun _ => 97) 1 ⟨[], HostFile.small_nil⟩

theorem write_refuses_readOnly : readOnlyFile.Unwritable 2 ∧
    Refused [] 0 (callRegisters 7 0 5 2) readOnlyFile := by
  have hbad : readOnlyFile.Unwritable 2 := by
    intro d hd
    cases hd
    exact .inl rfl
  refine ⟨hbad, (write_refuses_iff [] 0 (callRegisters 7 0 5 2) readOnlyFile rfl).mpr
    (fun _ => ⟨nofun, by decide, fun j hj _ => ?_⟩) hbad⟩
  have hmapped := sample_buffer (fun _ => 97) 1 ⟨[], by decide⟩ (n := 5) (by decide) false j hj
  exact Option.ne_none_iff_exists'.mpr ⟨_, hmapped.char?⟩

/-- For the descriptor `-1` the table is read in front of its first entry. -/
theorem write_not_refused : readOnlyFile.Unwritable (-1) ∧
    ¬Refused [] 0 (callRegisters 7 0 5 (-1)) readOnlyFile := by
  have hd : readOnlyFile.descriptor (-1) = none := rfl
  constructor
  · intro d h
    rw [hd] at h
    cases h
  rintro ⟨r', s', hrun, -⟩
  have hhandler : (services []).handlerOf 0 7 = some (services []).exceptionWrite := rfl
  rw [Services.exceptionHandler_of_none hhandler (exceptionWrite_of_none hd)] at hrun
  cases hrun

end Devices

end Nachos
