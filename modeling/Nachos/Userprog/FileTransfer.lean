import Nachos.Userprog.UserCopy

/-!
# Reading and writing files

What `Read` delivers and `Write` stores, for any contents. Both pass their data through
routines for strings, so zero bytes decide.
-/
namespace Nachos

open Bytes (Byte)
open Command (onSecond)
open UserMemory (Touched Stored SameMap)

variable {s : Devices} {r : Registers} {d : Descriptor}

/-- A program calls `Read` on a regular file, with a buffer that is there. -/
structure ReadCall (r : Registers) (s : Devices) (d : Descriptor) : Prop where
  code : r 2 = 6
  charCount : 1 ≤ (r 5).toInt
  descriptor : s.descriptor (r 6) = some d
  regular : d.type = 0 ∨ d.type = 1
  sound : d.handle.Sound
  injective : s.memory.Injective
  buffer : s.memory.Buffer (r 4) (r 5).toNat true

/-- How many bytes there are to read. -/
def Devices.available (s : Devices) (r : Registers) (h : Handle) : ℕ :=
  min (r 5).toNat ((s.contents h).length - h.position)

/-- The registers after a system call. -/
theorem result_increase (r : Registers) (value : BitVec 32) :
    (r.writeRegister 2 value).increaseProgramCounter 2 = value := by
  rw [Registers.increaseProgramCounter_result]
  exact Function.update_self _ _ _

namespace Devices

/-- The checks of a descriptor that is in order. -/
theorem openf_spec (hd : s.descriptor (r 6) = some d) (old : List Byte) :
    onSecond ((services old).openf (r 6)) (r, s) = some (some d.type, r, s) := by
  obtain ⟨hid, hopen⟩ := descriptor_eq_some.mp hd
  refine Command.onSecond_of_some ?_
  simp [services, fileType, hid, hopen]

theorem fileType_spec (hd : s.descriptor (r 6) = some d) (old : List Byte) :
    (services old).fileType (r 6) (r, s) = some (d.type, r, s) := by
  rw [Services.fileType, Command.bind_of_some (openf_spec hd old)]
  rfl

/-- A buffer that begins with `bs`. -/
theorem map_getD_append {bs rest : List Byte} {n : ℕ} (hn : bs.length = n) :
    ((List.range n).map fun j => (bs ++ rest).getD j 0) = bs := by
  refine Bytes.ext_getD (by simp [hn]) fun i hi => ?_
  rw [List.length_map, List.length_range] at hi
  rw [List.getD_eq_getElem _ _ (by simpa using hi), List.getElem_map, List.getElem_range,
    List.getD_append _ _ _ _ (by omega)]

/-- `Read` of a file after the checks. -/
theorem readFile_spec {h : Handle} {addr charCount id : BitVec 32}
    (hd : s.descriptor id = some d) (hh : d.handle = h.synced) (hs : h.Sound)
    (hn : 0 ≤ charCount.toInt) (hu : s.memory.Injective)
    (hb : s.memory.Buffer addr charCount.toNat true) (hle : charCount.toNat ≤ MemorySize)
    (old temp : List Byte) {n : ℕ}
    (hmin : n = min charCount.toNat ((s.contents h).length - h.position)) : ∃ u',
      (services old).readFile addr charCount id (BitVec.ofNat 32 h.position) temp (r, s) =
        some ((), r.writeRegister 2 (if n = 0 then -2 else BitVec.ofNat 32 n),
          { s with memory := u' }.setHandle id d (h.synced.advance n)) ∧
      Stored s.memory u' addr 0
        (Bytes.upToZero (((s.contents h).drop h.position).take n)) := by
  have hlt := hs.lt
  have hlength := length_contents (s := s) hs
  simp only [MemorySize, NumPhysPages, PageSize] at hle
  have hread : onSecond ((services old).read id charCount) (r, s) = _ :=
    Command.onSecond_of_some (read_spec hd hh hs hn)
  rw [← hmin] at hread
  have hnat := Word.toNat_ofNat (n := n) (by omega)
  have hint := Word.toInt_ofNat (n := n) (by omega)
  rw [Services.readFile, Command.bind_of_some hread, hint]
  by_cases hzero : n = 0
  · rw [if_neg (by omega), if_pos hzero]
    refine ⟨s.memory, rfl, ?_⟩
    rw [hzero, List.take_zero]
    exact Stored.nil _ _ _
  · have hgot : (s.contents h).length - h.position ≥ n := by omega
    have hbs : (((s.contents h).drop h.position).take charCount.toNat) =
        ((s.contents h).drop h.position).take n := by
      rw [List.take_eq_take_iff, List.length_drop]
      omega
    have hlen : (((s.contents h).drop h.position).take n).length = n := by
      rw [List.length_take, List.length_drop]
      omega
    have hpos : onSecond ((services old).getCurrentPos id)
        (r, s.setHandle id d (h.synced.advance n)) = _ :=
      Command.onSecond_of_some (getCurrentPos_spec (descriptor_setHandle hd))
    simp only [Handle.synced_advance, setHandle_setHandle,
      Handle.position_advance (h := h) (n := n) (by omega)] at hpos
    have hcount := Word.ofNat_add_sub h.position n
    have hbuf : s.memory.Buffer addr (BitVec.ofNat 32 n).toNat true := fun i hi =>
      hb i (by omega)
    obtain ⟨u', m, hrun, hstored⟩ := Services.system2User_spec (writesMemory old) (r := r)
      (s := s.setHandle id d (h.synced.advance n)) hu hbuf
      (((s.contents h).drop h.position).take n ++
        temp.drop (((s.contents h).drop h.position).take n).length)
    rw [hnat, map_getD_append hlen] at hstored
    rw [if_pos (by omega), Command.bind_of_some hpos, hcount, if_neg hzero, hbs]
    exact ⟨u', Command.bind_of_some hrun, hstored⟩

theorem exceptionRead_spec (h : ReadCall r s d) (old : List Byte) :
    ∃ u', (services old).exceptionRead (r, s) = some ((),
        r.writeRegister 2 (if s.available r d.handle = 0 then -2
          else BitVec.ofNat 32 (s.available r d.handle)),
        { s with memory := u' }.setHandle (r 6) d
          (d.handle.synced.advance (s.available r d.handle))) ∧
      Stored s.memory u' (r 4) 0 (Bytes.upToZero
        (((s.contents d.handle).drop d.handle.position).take (s.available r d.handle))) := by
  have hid := (descriptor_eq_some.mp h.descriptor).1
  have htype3 : d.type ≠ 3 := by rcases h.regular with h | h <;> rw [h] <;> decide
  have htype2 : d.type ≠ 2 := by rcases h.regular with h | h <;> rw [h] <;> decide
  have hn : (r 5).toNat ≤ 2 ^ 32 := (r 5).isLt.le
  have hle := h.buffer.le h.injective hn
  obtain ⟨u₁, htemp, ht⟩ := Services.user2System_spec (readsMemory old) (r := r)
    (s := s.setHandle (r 6) d d.handle.synced) (fun i hi => (h.buffer i hi).read) hle
  have hpos : onSecond ((services old).getCurrentPos (r 6)) (r, s) = _ :=
    Command.onSecond_of_some (getCurrentPos_spec h.descriptor)
  unfold Services.exceptionRead
  rw [Command.bind_of_some rfl, Command.bind_of_some rfl, Command.bind_of_some rfl,
    if_neg (by simpa using hid), Command.bind_of_some (openf_spec h.descriptor old),
    if_neg (by simp), Command.bind_of_some (fileType_spec h.descriptor old), if_neg htype3,
    Command.bind_of_some hpos, Command.bind_of_some htemp, if_neg htype2]
  have hcontents : Devices.contents { s.setHandle (r 6) d d.handle.synced with memory := u₁ }
      d.handle = s.contents d.handle := by cases d.handle <;> rfl
  have hbuf : u₁.Buffer (r 4) (r 5).toNat true := fun i hi =>
    ht.toSameMap.mapped (h.buffer i hi)
  obtain ⟨u', hrun, hstored⟩ := readFile_spec (r := r) (h := d.handle)
    (s := { s.setHandle (r 6) d d.handle.synced with memory := u₁ }) (n := s.available r d.handle)
    (descriptor_setHandle h.descriptor) rfl h.sound (by have := h.charCount; omega)
    (ht.toSameMap.injective h.injective) hbuf hle
    old (kernelBuf (s.memory.bytes (r 4) (r 5).toNat)) (by rw [hcontents]; rfl)
  rw [hcontents] at hstored
  refine ⟨u', hrun.trans ?_, ht.stored hstored⟩
  simp [setHandle]

end Devices

/-- What `Read` should have done when it returns. -/
structure Delivers (r : Registers) (s : Devices) (d : Descriptor) (r' : Registers) (s' : Devices) :
    Prop where
  result : r' 2 = if s.available r d.handle = 0 then -2 else BitVec.ofNat 32 (s.available r d.handle)
  position : ∃ d', s'.descriptor (r 6) = some d' ∧
    d'.handle.position = d.handle.position + s.available r d.handle
  delivered : ∀ j < s.available r d.handle, s'.memory.byte (r 4 + BitVec.ofNat 32 j) =
    (s.contents d.handle).getD (d.handle.position + j) 0
  others : ∀ a, s.memory.Mapped a false →
    (∀ j < s.available r d.handle, a ≠ r 4 + BitVec.ofNat 32 j) → s'.memory.byte a = s.memory.byte a

namespace ReadCall

variable {u' : UserMemory} {j : ℕ}

theorem available_le (h : ReadCall r s d) : s.available r d.handle ≤ MemorySize :=
  (Nat.min_le_left _ _).trans (h.buffer.le h.injective (r 5).isLt.le)

/-- The bytes that `Read` has found in the file. -/
theorem getD_found (hj : j < s.available r d.handle) :
    (((s.contents d.handle).drop d.handle.position).take (s.available r d.handle)).getD j 0 =
      (s.contents d.handle).getD (d.handle.position + j) 0 :=
  Bytes.getD_take_drop hj

theorem length_found : (((s.contents d.handle).drop d.handle.position).take
    (s.available r d.handle)).length = s.available r d.handle := by
  rw [List.length_take, List.length_drop]
  exact Nat.min_eq_left (Nat.min_le_right _ _)

/-- The file has been delivered exactly if the bytes behind a zero byte were there before. -/
theorem delivered_iff (h : ReadCall r s d) (hstored : Stored s.memory u' (r 4) 0 (Bytes.upToZero
      (((s.contents d.handle).drop d.handle.position).take (s.available r d.handle)))) :
    (∀ j < s.available r d.handle, u'.byte (r 4 + BitVec.ofNat 32 j) =
      (s.contents d.handle).getD (d.handle.position + j) 0) ↔
    ∀ i j, i < j → j < s.available r d.handle →
      (s.contents d.handle).getD (d.handle.position + i) 0 = 0 →
      (s.contents d.handle).getD (d.handle.position + j) 0 =
        s.memory.byte (r 4 + BitVec.ofNat 32 j) := by
  have hlen := length_found (s := s) (r := r) (d := d)
  have hdel := hstored.delivers_iff h.injective h.buffer (r 5).isLt.le
    (hlen.le.trans (Nat.min_le_left _ _))
  rw [hlen] at hdel
  constructor
  · intro hall i j hij hj hi
    have := hdel.mp (fun j hj => by rw [hall j hj, getD_found hj]) i j hij hj
      (by rwa [getD_found (hij.trans hj)])
    rwa [getD_found hj] at this
  · intro hcond j hj
    rw [← getD_found hj]
    refine hdel.mpr (fun i j hij hj hi => ?_) j hj
    rw [getD_found hj]
    exact hcond i j hij hj (by rwa [getD_found (hij.trans hj)] at hi)

theorem handlerOf (h : ReadCall r s d) (old : List Byte) (fuel : ℕ) :
    (Devices.services old).handlerOf fuel (r 2).toNat =
      some (Devices.services old).exceptionRead := by
  rw [h.code]
  rfl

/-- A byte behind a zero is only delivered if it is there already. -/
theorem of_delivers (h : ReadCall r s d) {old : List Byte} {fuel : ℕ} {r' : Registers} {s' : Devices}
    (hrun : (Devices.services old).exceptionHandler fuel .SyscallException (r, s) =
      some ((), r', s')) (hdel : Delivers r s d r' s') {i : ℕ} (hij : i < j)
    (hj : j < s.available r d.handle)
    (hi : (s.contents d.handle).getD (d.handle.position + i) 0 = 0) :
    (s.contents d.handle).getD (d.handle.position + j) 0 =
      s.memory.byte (r 4 + BitVec.ofNat 32 j) := by
  obtain ⟨u', hread, hstored⟩ := Devices.exceptionRead_spec h old
  rw [Services.exceptionHandler_of_some (h.handlerOf old fuel) hread] at hrun
  cases hrun
  exact (h.delivered_iff hstored).mp hdel.delivered i j hij hj hi

end ReadCall

/-- `Read` delivers what it reports exactly if every byte behind a zero byte is already in the
buffer. -/
theorem read_delivers_iff (h : ReadCall r s d) (old : List Byte) (fuel : ℕ) :
    (∃ r' s', (Devices.services old).exceptionHandler fuel .SyscallException (r, s) =
      some ((), r', s') ∧ Delivers r s d r' s') ↔
    ∀ i j, i < j → j < s.available r d.handle →
      (s.contents d.handle).getD (d.handle.position + i) 0 = 0 →
      (s.contents d.handle).getD (d.handle.position + j) 0 =
        s.memory.byte (r 4 + BitVec.ofNat 32 j) := by
  constructor
  · rintro ⟨r', s', hrun, hdel⟩ i j hij hj hi
    exact h.of_delivers hrun hdel hij hj hi
  · intro hcond
    obtain ⟨u', hread, hstored⟩ := Devices.exceptionRead_spec h old
    refine ⟨_, _, Services.exceptionHandler_of_some (h.handlerOf old fuel) hread,
      result_increase _ _, ?_, (h.delivered_iff hstored).mpr hcond, fun a ha hne => ?_⟩
    · refine ⟨_, Devices.descriptor_setHandle h.descriptor, Handle.position_advance ?_⟩
      have hlt := h.sound.lt
      have hle := h.available_le
      simp only [MemorySize, NumPhysPages, PageSize] at hle
      omega
    · have hle := (Bytes.length_upToZero_le _).trans
        (ReadCall.length_found (s := s) (r := r) (d := d)).le
      exact hstored.byte_rest h.injective h.buffer (hle.trans (Nat.min_le_left _ _)) ha
        fun j hj => hne j (hj.trans_le hle)

/-- A call of `Read` for three bytes into a buffer of blanks. -/
theorem readCall_sample (file : HostFile) :
    ReadCall (callRegisters 6 0 3 2) (.sample (fun _ => 32) 0 file) ⟨0, .host 0 0 0⟩ where
  code := rfl
  charCount := by decide
  descriptor := rfl
  regular := .inl rfl
  sound := show 0 < 2 ^ 31 by decide
  injective := Devices.sample_injective _ _ _
  buffer := Devices.sample_buffer _ _ _ (by decide) _

/-- Text without zero bytes. -/
def textFile : HostFile := ⟨[65, 66, 67, 68], by decide⟩

theorem read_delivers_textFile :
    ReadCall (callRegisters 6 0 3 2) (.sample (fun _ => 32) 0 textFile) ⟨0, .host 0 0 0⟩ ∧
    ∃ r' s', (Devices.services []).exceptionHandler 0 .SyscallException
        (callRegisters 6 0 3 2, .sample (fun _ => 32) 0 textFile) = some ((), r', s') ∧
      Delivers (callRegisters 6 0 3 2) (.sample (fun _ => 32) 0 textFile) ⟨0, .host 0 0 0⟩ r' s' := by
  refine ⟨readCall_sample textFile, (read_delivers_iff (readCall_sample textFile) [] 0).mpr ?_⟩
  have hnz : ∀ i < 3, textFile.contents.getD i 0 ≠ 0 := by decide
  intro i j hij hj hi
  have hj : j < 3 := hj
  have hi : textFile.contents.getD (0 + i) 0 = 0 := hi
  exact absurd hi (hnz _ (by omega))

/-- A zero byte in the middle. -/
def binaryFile : HostFile := ⟨[65, 0, 67, 68], by decide⟩

/-- Three bytes are reported, and the third is not delivered. -/
theorem read_not_delivers_binaryFile :
    ReadCall (callRegisters 6 0 3 2) (.sample (fun _ => 32) 0 binaryFile) ⟨0, .host 0 0 0⟩ ∧
    ¬∃ r' s', (Devices.services []).exceptionHandler 0 .SyscallException
        (callRegisters 6 0 3 2, .sample (fun _ => 32) 0 binaryFile) = some ((), r', s') ∧
      Delivers (callRegisters 6 0 3 2) (.sample (fun _ => 32) 0 binaryFile) ⟨0, .host 0 0 0⟩ r' s' := by
  refine ⟨readCall_sample binaryFile, ?_⟩
  rintro ⟨r', s', hrun, hdel⟩
  have := (readCall_sample binaryFile).of_delivers hrun hdel (i := 1) (j := 2) (by decide)
    (by decide) (by decide)
  exact absurd this (by decide)

/-! ## Writing -/

/-- A program calls `Write` on a file or the console, with a buffer that is there. -/
structure WriteCall (r : Registers) (s : Devices) (d : Descriptor) : Prop where
  code : r 2 = 7
  charcount : 1 ≤ (r 5).toInt
  descriptor : s.descriptor (r 6) = some d
  writable : d.type = 0 ∨ d.type = 3
  sound : d.handle.Sound
  injective : s.memory.Injective
  buffer : s.memory.Buffer (r 4) (r 5).toNat false

namespace Devices

/-- The loop over the characters of a line. -/
theorem writeLine_spec (old temp : List Byte) (i n : ℕ) : ∃ bs : List Byte,
    (services old).writeLine temp i n (r, s) =
      some (i + bs.length, r, { s with output := s.output ++ bs }) ∧ bs.length ≤ n := by
  induction n generalizing i s with
  | zero => exact ⟨[], by simp [Services.writeLine], le_rfl⟩
  | succ n ih =>
    unfold Services.writeLine
    split
    · have hwrite : onSecond ((services old).consoleWrite [temp.getD i 0]) (r, s) =
          some ((), r, { s with output := s.output ++ [temp.getD i 0] }) := rfl
      obtain ⟨bs, hrun, hle⟩ := ih (i := i + 1)
        (s := { s with output := s.output ++ [temp.getD i 0] })
      refine ⟨temp.getD i 0 :: bs, ?_, by simpa using hle⟩
      rw [Command.bind_of_some hwrite, hrun]
      simp only [List.append_assoc, List.singleton_append, List.length_cons]
      congr 2
      omega
    · exact ⟨[], by simp, Nat.zero_le _⟩

/-- `Write` to the console: one more byte than the line has, and one less is reported. -/
theorem writeConsole_spec (old temp : List Byte) : ∃ bs : List Byte,
    (services old).writeConsole temp (r, s) = some ((),
      r.writeRegister 2 (BitVec.ofNat 32 bs.length - 1),
      { s with output := s.output ++ (bs ++ [10]) }) ∧ bs.length ≤ temp.length := by
  obtain ⟨bs, hrun, hle⟩ := writeLine_spec (r := r) (s := s) old temp 0 temp.length
  have hwrite : onSecond ((services old).consoleWrite [10])
      (r, { s with output := s.output ++ bs }) =
      some ((), r, { s with output := s.output ++ bs ++ [10] }) := rfl
  refine ⟨bs, ?_, hle⟩
  rw [Services.writeConsole, Command.bind_of_some hrun, Command.bind_of_some hwrite,
    List.append_assoc, Nat.zero_add]
  rfl

/-- `Write` to a file. If nothing is accepted, nothing is reported either. -/
theorem writeFile_spec {h : Handle} {charcount id : BitVec 32} (hd : s.descriptor id = some d)
    (hh : d.handle = h.synced) (hn : 0 ≤ charcount.toInt) (hs : h.Sound) (hroom : h.Room charcount.toNat)
    {temp : List Byte} (htemp : charcount.toNat ≤ temp.length) (old : List Byte) : ∃ s',
      (services old).writeFile charcount id (BitVec.ofNat 32 h.position) temp (r, s) = some ((),
        if h.accepts charcount.toNat = 0 then r
        else r.writeRegister 2 (BitVec.ofNat 32 (h.accepts charcount.toNat)), s') ∧
      s'.contents h = Bytes.overwrite (s.contents h) h.position
        (temp.take (h.accepts charcount.toNat)) ∧
      OnlyFile s s' h ∧ s'.output = s.output := by
  obtain ⟨s', hwrite, hcontents, honly, hout, hd'⟩ := write_spec hd hh hn hs hroom htemp old
  have hrun : onSecond ((services old).write id temp charcount) (r, s) = _ :=
    Command.onSecond_of_some hwrite
  have hlt := hs.lt
  have hsmall := BitVec.toInt_pos_iff.mp hn
  have haccepts := h.accepts_le charcount.toNat
  generalize h.accepts charcount.toNat = n at *
  have hint := Word.toInt_ofNat (n := n) (by omega)
  rw [Services.writeFile, Command.bind_of_some hrun, hint]
  by_cases hzero : n = 0
  · rw [if_neg (by omega), if_pos hzero]
    exact ⟨s', rfl, hcontents, honly, hout⟩
  · have hpos : onSecond ((services old).getCurrentPos id) (r, s') = _ :=
      Command.onSecond_of_some (getCurrentPos_spec hd')
    simp only [Handle.synced_advance, Handle.position_advance (h := h) (n := n) (by omega)] at hpos
    have hcount := Word.ofNat_add_sub h.position n
    rw [if_pos (by omega), Command.bind_of_some hpos, hcount, if_neg hzero]
    refine ⟨_, rfl, contents_setHandle.trans hcontents, ?_, hout⟩
    cases h <;> exact honly

/-- The checks of `Write` let such a call through. -/
theorem exceptionWrite_eq (h : WriteCall r s d) (old : List Byte) :
    (services old).exceptionWrite (r, s) =
      (services old).writeOpen (r 4) (r 5) (r 6) d.type (r, s) := by
  have hid := (descriptor_eq_some.mp h.descriptor).1
  have htype : ¬(d.type = 1 ∨ d.type = 2) := by
    rcases h.writable with h | h <;> rw [h] <;> decide
  unfold Services.exceptionWrite
  rw [Command.bind_of_some rfl, Command.bind_of_some rfl, Command.bind_of_some rfl,
    Command.bind_of_some (Handler.failIf_of_not (by simpa using hid) _),
    Command.bind_of_some (openf_spec h.descriptor old),
    Command.bind_of_some (Handler.failIf_of_not (by simp) _),
    Command.bind_of_some (fileType_spec h.descriptor old),
    Command.bind_of_some (Handler.failIf_of_not htype _)]

/-- `Write` before it looks at the type again. -/
theorem writeOpen_eq (h : WriteCall r s d) (old : List Byte) : ∃ u',
    (services old).writeOpen (r 4) (r 5) (r 6) d.type (r, s) =
      (if d.type = 0 then (services old).writeFile (r 5) (r 6)
          (BitVec.ofNat 32 d.handle.position) (kernelBuf (s.memory.bytes (r 4) (r 5).toNat))
        else if d.type = 3 then
          (services old).writeConsole (kernelBuf (s.memory.bytes (r 4) (r 5).toNat))
        else pure ()) (r, { s.setHandle (r 6) d d.handle.synced with memory := u' }) := by
  obtain ⟨u', htemp, -⟩ := Services.user2System_spec (readsMemory old) (r := r)
    (s := s.setHandle (r 6) d d.handle.synced) h.buffer
    (h.buffer.le h.injective (r 5).isLt.le)
  have hpos : onSecond ((services old).getCurrentPos (r 6)) (r, s) = _ :=
    Command.onSecond_of_some (getCurrentPos_spec h.descriptor)
  refine ⟨u', ?_⟩
  rw [Services.writeOpen, Command.bind_of_some hpos, Command.bind_of_some htemp]
  rfl

theorem length_bytes (u : UserMemory) (addr : BitVec 32) (n : ℕ) : (u.bytes addr n).length = n := by
  simp [UserMemory.bytes]

/-- What `Write` does to a file. -/
theorem exceptionWrite_file (h : WriteCall r s d) (htype : d.type = 0)
    (hroom : d.handle.Room (r 5).toNat) (old : List Byte) :
    ∃ s', (services old).exceptionWrite (r, s) = some ((),
        if d.handle.accepts (r 5).toNat = 0 then r
        else r.writeRegister 2 (BitVec.ofNat 32 (d.handle.accepts (r 5).toNat)), s') ∧
      s'.contents d.handle = Bytes.overwrite (s.contents d.handle) d.handle.position
        ((kernelBuf (s.memory.bytes (r 4) (r 5).toNat)).take (d.handle.accepts (r 5).toNat)) ∧
      OnlyFile s s' d.handle ∧ s'.output = s.output := by
  obtain ⟨u', heq⟩ := writeOpen_eq h old
  rw [if_pos htype] at heq
  have hcontents : Devices.contents { s.setHandle (r 6) d d.handle.synced with memory := u' }
      d.handle = s.contents d.handle := by cases d.handle <;> rfl
  have hlen : (r 5).toNat ≤ (kernelBuf (s.memory.bytes (r 4) (r 5).toNat)).length := by
    rw [length_kernelBuf, length_bytes]
    omega
  obtain ⟨s', hrun, hstored, honly, hout⟩ := writeFile_spec (r := r) (h := d.handle)
    (s := { s.setHandle (r 6) d d.handle.synced with memory := u' })
    (descriptor_setHandle h.descriptor) rfl (by have := h.charcount; omega) h.sound hroom hlen
    old
  rw [hcontents] at hstored
  refine ⟨s', (exceptionWrite_eq h old).trans (heq.trans hrun), hstored, ?_, hout⟩
  cases hh : d.handle <;> rw [hh] at honly <;> exact honly

theorem exceptionWrite_noRoom (h : WriteCall r s d) (htype : d.type = 0)
    (hroom : ¬d.handle.Room (r 5).toNat) (old : List Byte) :
    (services old).exceptionWrite (r, s) = none := by
  obtain ⟨u', heq⟩ := writeOpen_eq h old
  have hlen : (r 5).toNat ≤ (kernelBuf (s.memory.bytes (r 4) (r 5).toNat)).length := by
    rw [length_kernelBuf, length_bytes]
    omega
  have hwrite := write_eq_none (h := d.handle)
    (s := { s.setHandle (r 6) d d.handle.synced with memory := u' })
    (descriptor_setHandle h.descriptor) rfl (by have := h.charcount; omega) h.sound hroom hlen old
  rw [exceptionWrite_eq h old, heq, if_pos htype]
  exact Command.bind_of_none (Command.onSecond_of_none hwrite)

/-- What `Write` does to the console. -/
theorem exceptionWrite_console (h : WriteCall r s d) (htype : d.type = 3) (old : List Byte) :
    ∃ (bs : List Byte) (s' : Devices), (services old).exceptionWrite (r, s) = some ((),
        r.writeRegister 2 (BitVec.ofNat 32 bs.length - 1), s') ∧
      s'.output = s.output ++ (bs ++ [10]) ∧ bs.length ≤ MemorySize + 1 := by
  obtain ⟨u', heq⟩ := writeOpen_eq h old
  rw [if_neg (by rw [htype]; decide), if_pos htype] at heq
  obtain ⟨bs, hrun, hle⟩ := writeConsole_spec (r := r)
    (s := { s.setHandle (r 6) d d.handle.synced with memory := u' }) old
    (kernelBuf (s.memory.bytes (r 4) (r 5).toNat))
  refine ⟨bs, _, (exceptionWrite_eq h old).trans (heq.trans hrun), rfl, hle.trans ?_⟩
  have := h.buffer.le h.injective (r 5).isLt.le
  rw [length_kernelBuf, length_bytes]
  omega

end Devices

/-- What `Write` should have done when it returns: the first bytes of the buffer are where they
belong, and as many are reported. -/
def Stores (r : Registers) (s : Devices) (d : Descriptor) (r' : Registers) (s' : Devices) : Prop :=
  ∃ n ≤ (r 5).toNat, r' 2 = BitVec.ofNat 32 n ∧
    if d.type = 0 then
      s'.contents d.handle = Bytes.overwrite (s.contents d.handle) d.handle.position
        ((s.memory.bytes (r 4) (r 5).toNat).take n) ∧
      Devices.OnlyFile s s' d.handle ∧ s'.output = s.output
    else
      s'.output = s.output ++ (s.memory.bytes (r 4) (r 5).toNat).take n ∧
      s'.files = s.files ∧ s'.disk = s.disk

namespace WriteCall

variable {old : List Byte} {fuel n : ℕ} {r' : Registers} {s' : Devices}

theorem handlerOf (h : WriteCall r s d) (old : List Byte) (fuel : ℕ) :
    (Devices.services old).handlerOf fuel (r 2).toNat =
      some (Devices.services old).exceptionWrite := by
  rw [h.code]
  rfl

/-- On the console, what is emitted and what is reported differ by two. -/
theorem not_stores_console (h : WriteCall r s d) (htype : d.type = 3)
    (hrun : (Devices.services old).exceptionHandler fuel .SyscallException (r, s) =
      some ((), r', s')) : ¬Stores r s d r' s' := by
  rintro ⟨n, hn, hresult, hstored⟩
  obtain ⟨bs, s₁, hwrite, hout, hle⟩ := Devices.exceptionWrite_console h htype old
  rw [Services.exceptionHandler_of_some (h.handlerOf old fuel) hwrite] at hrun
  cases hrun
  rw [if_neg (by rw [htype]; decide), hout] at hstored
  have hlen := congrArg List.length (List.append_cancel_left hstored.1)
  rw [List.length_append, List.length_singleton, List.length_take, Devices.length_bytes,
    Nat.min_eq_left hn] at hlen
  rw [result_increase, ← hlen] at hresult
  simp only [MemorySize, NumPhysPages, PageSize] at hle
  have hone : (1 : BitVec 32).toNat = 1 := rfl
  have := congrArg BitVec.toNat hresult
  simp only [BitVec.toNat_sub, BitVec.toNat_ofNat, hone] at this
  omega

/-- `Write` to a file only returns if there is room. -/
theorem room_of_returns (h : WriteCall r s d) (htype : d.type = 0)
    (hrun : (Devices.services old).exceptionHandler fuel .SyscallException (r, s) =
      some ((), r', s')) : d.handle.Room (r 5).toNat := by
  by_contra hroom
  rw [Services.exceptionHandler_of_none (h.handlerOf old fuel)
    (Devices.exceptionWrite_noRoom h htype hroom old)] at hrun
  cases hrun

/-- A call that nothing is accepted of reports the number of the system call. -/
theorem not_stores_full (h : WriteCall r s d) (htype : d.type = 0)
    (hfull : d.handle.accepts (r 5).toNat = 0)
    (hrun : (Devices.services old).exceptionHandler fuel .SyscallException (r, s) =
      some ((), r', s')) : ¬Stores r s d r' s' := by
  rintro ⟨n, hn, hresult, hstored⟩
  obtain ⟨s₁, hwrite, hcontents, -, -⟩ :=
    Devices.exceptionWrite_file h htype (h.room_of_returns htype hrun) old
  rw [Services.exceptionHandler_of_some (h.handlerOf old fuel) hwrite] at hrun
  cases hrun
  have hsize := h.buffer.le h.injective (r 5).isLt.le
  simp only [MemorySize, NumPhysPages, PageSize] at hsize
  have hcount : 0 < (r 5).toNat := by
    rcases Nat.eq_zero_or_pos (r 5).toNat with hz | hpos
    · have := h.charcount
      rw [BitVec.eq_of_toNat_eq (y := 0#32) hz] at this
      exact absurd this (by decide)
    · exact hpos
  have hkept : (r 2 : BitVec 32) = BitVec.ofNat 32 n := by
    rw [if_pos hfull] at hresult
    exact hresult
  rw [h.code] at hkept
  have hseven : 7 = n := Word.ofNat_inj (by omega) (by omega) hkept
  subst hseven
  rw [hfull, List.take_zero] at hcontents
  rw [if_pos htype, hcontents] at hstored
  have hlen := congrArg List.length hstored.1
  have hne : (s.memory.bytes (r 4) (r 5).toNat).take 7 ≠ [] := by
    intro he
    have := congrArg List.length he
    rw [List.length_take, Devices.length_bytes, List.length_nil] at this
    omega
  rw [Bytes.length_overwrite hne, List.length_take, Devices.length_bytes] at hlen
  have := Devices.length_le_of_accepts (s := s) h.sound hcount hfull
  simp only [Bytes.overwrite, if_true] at hlen
  omega

/-- Otherwise all that was accepted is reported. -/
theorem stores_iff (h : WriteCall r s d) (htype : d.type = 0)
    (hsome : d.handle.accepts (r 5).toNat ≠ 0)
    (hrun : (Devices.services old).exceptionHandler fuel .SyscallException (r, s) =
      some ((), r', s')) : Stores r s d r' s' ↔
    ∀ i j, i < j → j < d.handle.accepts (r 5).toNat →
      (s.memory.bytes (r 4) (r 5).toNat).getD i 0 = 0 →
      (s.memory.bytes (r 4) (r 5).toNat).getD j 0 = 0 := by
  obtain ⟨s₁, hwrite, hcontents, honly, hout⟩ :=
    Devices.exceptionWrite_file h htype (h.room_of_returns htype hrun) old
  rw [Services.exceptionHandler_of_some (h.handlerOf old fuel) hwrite] at hrun
  cases hrun
  have hle := d.handle.accepts_le (r 5).toNat
  have hlt := (r 5).isLt
  have hresult : (if d.handle.accepts (r 5).toNat = 0 then r else r.writeRegister 2
      (BitVec.ofNat 32 (d.handle.accepts (r 5).toNat))).increaseProgramCounter 2 =
      BitVec.ofNat 32 (d.handle.accepts (r 5).toNat) := by
    rw [if_neg hsome, result_increase]
  rw [← take_kernelBuf_iff (by rw [Devices.length_bytes]; exact hle)]
  constructor
  · rintro ⟨n, hn, hreport, hstored⟩
    have heq : d.handle.accepts (r 5).toNat = n :=
      Word.ofNat_inj (by omega) (by omega) (hresult.symm.trans hreport)
    rw [if_pos htype, hcontents, ← heq] at hstored
    refine Bytes.overwrite_inj ?_ hstored.1
    rw [List.length_take, List.length_take, length_kernelBuf, Devices.length_bytes]
    omega
  · intro hsame
    refine ⟨_, hle, hresult, ?_⟩
    rw [if_pos htype, ← hsame]
    exact ⟨hcontents, honly, hout⟩

end WriteCall

/-- `Write` stores what it was given and reports it exactly if it goes to a file that has room
and accepts something, and nothing but zeros follows a zero in the part that is accepted. -/
theorem write_stores_iff (h : WriteCall r s d) (old : List Byte) (fuel : ℕ) :
    (∃ r' s', (Devices.services old).exceptionHandler fuel .SyscallException (r, s) =
      some ((), r', s') ∧ Stores r s d r' s') ↔
    d.type = 0 ∧ d.handle.Room (r 5).toNat ∧ d.handle.accepts (r 5).toNat ≠ 0 ∧
      ∀ i j, i < j → j < d.handle.accepts (r 5).toNat →
        (s.memory.bytes (r 4) (r 5).toNat).getD i 0 = 0 →
        (s.memory.bytes (r 4) (r 5).toNat).getD j 0 = 0 := by
  constructor
  · rintro ⟨r', s', hrun, hstores⟩
    have htype : d.type = 0 := by
      rcases h.writable with htype | htype
      · exact htype
      · exact absurd hstores (h.not_stores_console htype hrun)
    have hsome : d.handle.accepts (r 5).toNat ≠ 0 := fun hfull =>
      h.not_stores_full htype hfull hrun hstores
    exact ⟨htype, h.room_of_returns htype hrun, hsome, (h.stores_iff htype hsome hrun).mp hstores⟩
  · rintro ⟨htype, hroom, hsome, hzeros⟩
    obtain ⟨s', hwrite, -⟩ := Devices.exceptionWrite_file h htype hroom old
    have hrun := Services.exceptionHandler_of_some (h.handlerOf old fuel) hwrite
    exact ⟨_, s', hrun, (h.stores_iff htype hsome hrun).mpr hzeros⟩

/-- A call of `Write` for three bytes. -/
theorem writeCall_sample (mainMemory : Bytes.Memory) {type : BitVec 32} (htype : type = 0 ∨ type = 3) :
    WriteCall (callRegisters 7 0 3 2) (.sample mainMemory type textFile) ⟨type, .host 0 0 0⟩ where
  code := rfl
  charcount := by decide
  descriptor := rfl
  writable := htype
  sound := show 0 < 2 ^ 31 by decide
  injective := Devices.sample_injective _ _ _
  buffer := Devices.sample_buffer _ _ _ (by decide) _

/-- Blanks are stored as they are. -/
theorem write_stores_blanks :
    WriteCall (callRegisters 7 0 3 2) (.sample (fun _ => 32) 0 textFile) ⟨0, .host 0 0 0⟩ ∧
    ∃ r' s', (Devices.services []).exceptionHandler 0 .SyscallException
        (callRegisters 7 0 3 2, .sample (fun _ => 32) 0 textFile) = some ((), r', s') ∧
      Stores (callRegisters 7 0 3 2) (.sample (fun _ => 32) 0 textFile) ⟨0, .host 0 0 0⟩ r' s' := by
  have hcall := writeCall_sample (fun _ => 32) (.inl rfl)
  refine ⟨hcall, (write_stores_iff hcall [] 0).mpr
    ⟨rfl, show 0 + 3 < 2 ^ 31 by decide, by decide, ?_⟩⟩
  intro i j hij hj hi
  have hj : j < 3 := hj
  have hblank : ∀ i < 3, ((Devices.sample (fun _ => 32) 0 textFile).memory.bytes 0 3).getD i 0 ≠ 0 := by
    decide
  exact absurd hi (hblank i (by omega))

/-- Memory with a zero byte and something behind it. -/
def zeroInside : Bytes.Memory := fun x => if x = 1 then 0 else 32

/-- Of a buffer with a zero byte inside, the rest is stored as zeros. On the console even
blanks are not reported as they are emitted. -/
theorem write_not_stores :
    (WriteCall (callRegisters 7 0 3 2) (.sample zeroInside 0 textFile) ⟨0, .host 0 0 0⟩ ∧
      ¬∃ r' s', (Devices.services []).exceptionHandler 0 .SyscallException
          (callRegisters 7 0 3 2, .sample zeroInside 0 textFile) = some ((), r', s') ∧
        Stores (callRegisters 7 0 3 2) (.sample zeroInside 0 textFile) ⟨0, .host 0 0 0⟩ r' s') ∧
    (WriteCall (callRegisters 7 0 3 2) (.sample (fun _ => 32) 3 textFile) ⟨3, .host 0 0 0⟩ ∧
      ¬∃ r' s', (Devices.services []).exceptionHandler 0 .SyscallException
          (callRegisters 7 0 3 2, .sample (fun _ => 32) 3 textFile) = some ((), r', s') ∧
        Stores (callRegisters 7 0 3 2) (.sample (fun _ => 32) 3 textFile) ⟨3, .host 0 0 0⟩ r' s') := by
  have hfile := writeCall_sample zeroInside (.inl rfl)
  have hconsole := writeCall_sample (fun _ => 32) (.inr rfl)
  refine ⟨⟨hfile, ?_⟩, hconsole, ?_⟩
  · rintro ⟨r', s', hrun, hstores⟩
    have hzeros := (hfile.stores_iff rfl (by decide) hrun).mp hstores 1 2 (by decide)
    exact absurd (hzeros (by decide) (by decide)) (by decide)
  · rintro ⟨r', s', hrun, hstores⟩
    exact hconsole.not_stores_console rfl hrun hstores

end Nachos
