import Nachos.Userprog.FileTransfer
import Nachos.Userprog.Terminal

/-!
# Reading from the console

`Read` on a descriptor of the console takes one line at most, and the newline is not part of it.
-/
namespace Nachos

open Bytes (Byte)
open Command (onSecond)
open ConsoleRead (typed line terminator Answered endsLine)
open UserMemory (Touched Stored SameMap)

variable {s s' : Terminal} {r r' : Registers} {d : Descriptor} {ch : Byte}

/-- A program calls `Read` on the console, with a buffer that is there. -/
structure ConsoleCall (r : Registers) (s : Terminal) (d : Descriptor) : Prop where
  code : r 2 = 6
  charCount : 1 ≤ (r 5).toInt
  descriptor : s.descriptor (r 6) = some d
  console : d.type = 2
  injective : s.memory.Injective
  buffer : s.memory.Buffer (r 4) (r 5).toNat true

namespace Terminal

/-- The number that `Read` reports for `n` characters. -/
def reported (n : ℕ) (input : List Byte) : Int :=
  if terminator n input = some 1 then -1 else (line n input).length

/-- The characters that go into the buffer. -/
def delivered (n : ℕ) (input : List Byte) : List Byte :=
  if terminator n input = some 1 then [] else line n input

theorem length_line_le (n : ℕ) (input : List Byte) : (line n input).length ≤ n := by
  rw [line, List.length_take]
  exact Nat.min_le_left _ _

/-- The state after the checks, with the position of the descriptor found. -/
def opened (s : Terminal) (id : BitVec 32) (d : Descriptor) : Terminal :=
  { s with toDevices := s.toDevices.setHandle id d d.handle.synced }

/-- `Read` on the console up to its call of `SynchConsole::Read`. -/
theorem exceptionRead_checks (h : ConsoleCall r s d) (ch : Byte) :
    ∃ u, Touched s.memory u ∧ (services ch).exceptionRead (r, s) =
      (services ch).readConsole (r 4) (r 5) (r, { s.opened (r 6) d with memory := u }) := by
  obtain ⟨hid, hopen⟩ := Devices.descriptor_eq_some.mp h.descriptor
  have hopenf : onSecond ((services ch).openf (r 6)) (r, s) = some (some d.type, r, s) := by
    refine Command.onSecond_of_some ?_
    simp [services, onDevices, Devices.fileType, hid, hopen]
  have htype : (services ch).fileType (r 6) (r, s) = some (d.type, r, s) := by
    rw [Services.fileType, Command.bind_of_some hopenf]
    rfl
  have hpos : onSecond ((services ch).getCurrentPos (r 6)) (r, s) =
      some (BitVec.ofNat 32 d.handle.position, r, s.opened (r 6) d) := by
    refine Command.onSecond_of_some ?_
    simp only [services, onDevices, Devices.getCurrentPos_spec h.descriptor]
    rfl
  have hle := h.buffer.le h.injective (r 5).isLt.le
  have hreads : s.memory.Buffer (r 4) (r 5).toNat false := fun i hi => (h.buffer i hi).read
  obtain ⟨u, htemp, ht⟩ := Services.user2System_spec (readsMemory ch) (r := r)
    (s := s.opened (r 6) d) hreads hle
  refine ⟨u, ht, ?_⟩
  unfold Services.exceptionRead
  rw [Command.bind_of_some rfl, Command.bind_of_some rfl, Command.bind_of_some rfl,
    if_neg (by simpa using hid), Command.bind_of_some hopenf, if_neg (by simp),
    Command.bind_of_some htype, if_neg (by rw [h.console]; decide), Command.bind_of_some hpos,
    Command.bind_of_some htemp, if_pos h.console]
  rfl

theorem exceptionRead_spec (h : ConsoleCall r s d) (ch : Byte)
    (ha : Answered (r 5).toNat s.input) : ∃ u call rest,
      ConsoleRead.readFrom s.input (.start (r 5).toNat ch) = some (call, rest) ∧
      (services ch).exceptionRead (r, s) = some ((),
        r.writeRegister 2 (BitVec.ofInt 32 (reported (r 5).toNat s.input)),
        { s.opened (r 6) d with memory := u, input := rest }) ∧
      Stored s.memory u (r 4) 0 (Bytes.upToZero (delivered (r 5).toNat s.input)) := by
  have hcount := h.charCount
  have hint := (Word.toNat_of_nonneg (x := r 5) (by omega)).1
  have hle := h.buffer.le h.injective (r 5).isLt.le
  simp only [MemorySize, NumPhysPages, PageSize] at hle
  have hline := length_line_le (r 5).toNat s.input
  obtain ⟨u, ht, hchecks⟩ := exceptionRead_checks h ch
  obtain ⟨call, rest, hrun, hinto, hresult⟩ := ConsoleRead.readFrom_start (by omega) ch ha
  have hread : onSecond ((services ch).consoleRead (r 5))
      (r, { s.opened (r 6) d with memory := u }) = some ((BitVec.ofInt 32 call.result, call.into),
        r, { s.opened (r 6) d with memory := u, input := rest }) := by
    refine Command.onSecond_of_some ?_
    show (ConsoleRead.readFrom s.input (.start (r 5).toInt ch)).map _ = _
    rw [hint, hrun]
    rfl
  rw [hchecks, Services.readConsole, Command.bind_of_some hread, reported, delivered, hresult]
  by_cases hend : terminator (r 5).toNat s.input = some 1
  · rw [if_pos hend, if_pos hend]
    have hcopy : (services ch).system2User (r 4) (BitVec.ofInt 32 (-1)) call.into
        (r, { s.opened (r 6) d with memory := u, input := rest }) =
          some (-1, r, { s.opened (r 6) d with memory := u, input := rest }) := rfl
    exact ⟨u, call, rest, hrun, Command.bind_of_some hcopy, ht.stored (Stored.nil _ _ _)⟩
  · rw [if_neg hend, if_neg hend]
    have hlen : BitVec.ofInt 32 ((line (r 5).toNat s.input).length : Int) =
        BitVec.ofNat 32 (line (r 5).toNat s.input).length := BitVec.ofInt_natCast _ _
    have hnat := Word.toNat_ofNat (n := (line (r 5).toNat s.input).length) (by omega)
    have hwrites : u.Buffer (r 4) (BitVec.ofNat 32 (line (r 5).toNat s.input).length).toNat true :=
      fun i hi => ht.toSameMap.mapped (h.buffer i (by omega))
    obtain ⟨u', m, hcopy, hstored⟩ := Services.system2User_spec (writesMemory ch) (r := r)
      (s := { s.opened (r 6) d with memory := u, input := rest })
      (ht.toSameMap.injective h.injective) hwrites call.into
    rw [hnat, hinto, Devices.map_getD_append rfl] at hstored
    rw [hlen]
    exact ⟨u', call, rest, hrun, Command.bind_of_some hcopy, ht.stored hstored⟩

theorem exceptionRead_waits (h : ConsoleCall r s d) (ch : Byte)
    (ha : ¬Answered (r 5).toNat s.input) : (services ch).exceptionRead (r, s) = none := by
  have hcount := h.charCount
  have hint := (Word.toNat_of_nonneg (x := r 5) (by omega)).1
  obtain ⟨u, -, hchecks⟩ := exceptionRead_checks h ch
  have hrun := ConsoleRead.readFrom_waits (r := .start (r 5).toNat ch) rfl (by simp [ConsoleRead.start]) ha
  rw [hchecks]
  refine Command.bind_of_none (Command.onSecond_of_none ?_)
  show (ConsoleRead.readFrom s.input (.start (r 5).toInt ch)).map _ = none
  rw [hint, hrun]
  rfl

end Terminal

/-- If `Read` comes back, it reports the end of the stream, or `k` characters, at least one and no
more than were asked for, and the next `k` that were typed are in the buffer. -/
def WaitsForOne (ch : Byte) (fuel : ℕ) (r : Registers) (s : Terminal) : Prop :=
  ∀ r' s', (Terminal.services ch).exceptionHandler fuel .SyscallException (r, s) =
      some ((), r', s') →
    (r' 2 = -1 ∧ terminator (r 5).toNat s.input = some 1) ∨
    ∃ k : ℕ, 1 ≤ k ∧ k ≤ (r 5).toNat ∧ k ≤ (typed s.input).length ∧ r' 2 = BitVec.ofNat 32 k ∧
      ∀ j < k, s'.memory.byte (r 4 + BitVec.ofNat 32 j) = (typed s.input).getD j 0

/-- The line does not begin with its end, and the characters behind a zero byte are in the buffer
already. -/
def Fortunate (r : Registers) (s : Terminal) : Prop :=
  line (r 5).toNat s.input ≠ [] ∧
    ∀ i j, i < j → j < (line (r 5).toNat s.input).length →
      (line (r 5).toNat s.input).getD i 0 = 0 →
      (line (r 5).toNat s.input).getD j 0 = s.memory.byte (r 4 + BitVec.ofNat 32 j)

theorem line_initial (n : ℕ) (input : List Byte) : line n input <+: typed input :=
  (List.take_prefix _ _).trans (List.takeWhile_prefix _)

theorem getD_initial {bs cs : List Byte} (h : bs <+: cs) {j : ℕ} (hj : j < bs.length) :
    cs.getD j 0 = bs.getD j 0 := by
  obtain ⟨rest, rfl⟩ := h
  exact List.getD_append _ _ _ _ hj

theorem handlerOf_read {k : Services Terminal} (fuel : ℕ) (hcode : r 2 = 6) :
    k.handlerOf fuel (r 2).toNat = some k.exceptionRead := by
  rw [hcode]
  rfl

/-- A call that comes back with what it has read. -/
theorem waitsForOne_iff (h : ConsoleCall r s d) (ch : Byte) (fuel : ℕ) :
    WaitsForOne ch fuel r s ↔ (Answered (r 5).toNat s.input →
      terminator (r 5).toNat s.input = some 1 ∨ Fortunate r s) := by
  have hcount := h.charCount
  have hint := (Word.toNat_of_nonneg (x := r 5) (by omega)).1
  have hle := h.buffer.le h.injective (r 5).isLt.le
  simp only [MemorySize, NumPhysPages, PageSize] at hle
  have hline := Terminal.length_line_le (r 5).toNat s.input
  have hinitial := line_initial (r 5).toNat s.input
  by_cases ha : Answered (r 5).toNat s.input
  · obtain ⟨u, call, rest, -, hrun, hstored⟩ := Terminal.exceptionRead_spec h ch ha
    have hreturn := Services.exceptionHandler_of_some (handlerOf_read fuel h.code) hrun
    rw [Terminal.delivered] at hstored
    rw [Terminal.reported] at hreturn
    by_cases hend : terminator (r 5).toNat s.input = some 1
    · refine iff_of_true (fun r' s' hr => ?_) fun _ => .inl hend
      rw [hreturn, if_pos hend] at hr
      cases hr
      exact .inl ⟨result_increase _ _, hend⟩
    · rw [if_neg hend] at hstored hreturn
      rw [BitVec.ofInt_natCast] at hreturn
      have hdel := hstored.delivers_iff h.injective h.buffer (r 5).isLt.le hline
      constructor
      · intro hlaw _
        refine .inr ?_
        rcases hlaw _ _ hreturn with ⟨-, h1⟩ | ⟨k, hk, hkn, -, hresult, hbytes⟩
        · exact absurd h1 hend
        · rw [result_increase] at hresult
          have hklen := Word.ofNat_inj (by omega) (by omega) hresult
          refine ⟨fun hnil => ?_, hdel.mp fun j hj => ?_⟩
          · rw [hnil, List.length_nil] at hklen
            omega
          · rw [← getD_initial hinitial hj]
            exact hbytes j (by omega)
      · intro hcond r' s' hr
        rw [hreturn] at hr
        cases hr
        obtain ⟨hne, hzero⟩ := (hcond ha).resolve_left hend
        refine .inr ⟨(line (r 5).toNat s.input).length, List.length_pos_iff.mpr hne, hline,
          hinitial.length_le, result_increase _ _, fun j hj => ?_⟩
        rw [getD_initial hinitial hj]
        exact hdel.mpr hzero j hj
  · refine iff_of_true (fun r' s' hr => ?_) fun h => absurd h ha
    rw [Services.exceptionHandler_of_none (handlerOf_read fuel h.code)
      (Terminal.exceptionRead_waits h ch ha)] at hr
    cases hr

/-! ## A loop over one line -/

namespace Terminal

/-- The loop of `shell.c` that reads a line into `buffer`, one character for each call, with a
bound on the number of calls: the index at which it ends. -/
def readLoop (ch : Byte) (fuel : ℕ) (buffer id : BitVec 32) : ℕ → ℕ → Command Terminal ℕ
  | 0, _ => Command.stop
  | calls + 1, i => fun s =>
    match (services ch).exceptionHandler fuel .SyscallException
      (callRegisters 6 (buffer + BitVec.ofNat 32 i) 1 id, s) with
    | some (_, _, s') =>
      if s'.memory.byte (buffer + BitVec.ofNat 32 i) = 10 then some (i, s')
      else readLoop ch fuel buffer id calls (i + 1) s'
    | none => none

/-- The loop has `n` more characters to read, from index `i` on. -/
structure Reading (buffer id : BitVec 32) (i n : ℕ) (s : Terminal) : Prop where
  descriptor : ∃ d, s.descriptor id = some d ∧ d.type = 2
  injective : s.memory.Injective
  buffer : ∀ j < n, s.memory.Mapped (buffer + BitVec.ofNat 32 (i + j)) true
  small : i + n ≤ 2 ^ 32

variable {buffer id : BitVec 32} {i n : ℕ} {c : Byte} {input rest l : List Byte}

theorem Reading.call (h : Reading buffer id i (n + 1) s) : ∃ d,
    ConsoleCall (callRegisters 6 (buffer + BitVec.ofNat 32 i) 1 id) s d := by
  obtain ⟨d, hd, htype⟩ := h.descriptor
  refine ⟨d, rfl, (by decide : 1 ≤ (1 : BitVec 32).toInt), hd, htype, h.injective, fun j hj => ?_⟩
  have hj : j < 1 := hj
  obtain rfl : j = 0 := by omega
  have hmap := h.buffer 0 (by omega)
  rw [Nat.add_zero] at hmap
  exact (BitVec.add_zero (buffer + BitVec.ofNat 32 i)).symm ▸ hmap

theorem delivered_one (hc : c ≠ EOF) (input : List Byte) :
    delivered 1 (c :: input) = if endsLine c then [] else [c] := by
  rw [delivered, ConsoleRead.terminator_cons, ConsoleRead.line_cons, if_neg hc, if_neg hc]
  cases endsLine c <;> simp

/-- One call of the loop: a character is stored, but not one that ends the line. -/
theorem Reading.step (h : Reading buffer id i (n + 1) s) (ch : Byte) (fuel : ℕ) (hc : c ≠ EOF)
    (hs : s.input = c :: input) : ∃ r' s',
      (services ch).exceptionHandler fuel .SyscallException
        (callRegisters 6 (buffer + BitVec.ofNat 32 i) 1 id, s) = some ((), r', s') ∧
      s'.input = input ∧ Reading buffer id (i + 1) n s' ∧
      s'.memory.byte (buffer + BitVec.ofNat 32 i) =
        (if endsLine c then s.memory.byte (buffer + BitVec.ofNat 32 i) else c) ∧
      ∀ j < n, s'.memory.byte (buffer + BitVec.ofNat 32 (i + 1 + j)) =
        s.memory.byte (buffer + BitVec.ofNat 32 (i + 1 + j)) := by
  obtain ⟨d, hcall⟩ := h.call
  have hsmall := h.small
  have ha : Answered 1 s.input := by
    rw [hs, ConsoleRead.answered_cons, if_neg hc]
    exact .inr (ConsoleRead.answered_zero _)
  obtain ⟨u, call, rest, hread, hrun, hstored⟩ := exceptionRead_spec hcall ch ha
  have hdel : Bytes.upToZero (delivered 1 s.input) = if endsLine c then [] else [c] := by
    rw [hs, delivered_one hc]
    split
    · rfl
    · rw [Bytes.upToZero]
      split
      · rename_i hz
        rw [hz]
      · rfl
  have hstored : Stored s.memory u (buffer + BitVec.ofNat 32 i) 0
      (if endsLine c then [] else [c]) := hdel ▸ hstored
  have hlen : (if endsLine c then [] else [c]).length ≤ 1 := by split <;> simp
  have hrest : rest = input := by
    rw [hs] at hread
    have := hread.symm.trans (readFrom_one hc ch input)
    cases this
    rfl
  refine ⟨_, _, Services.exceptionHandler_of_some (handlerOf_read fuel rfl) hrun, hrest, ?_, ?_, ?_⟩
  · refine ⟨⟨_, Devices.descriptor_setHandle hcall.descriptor, hcall.console⟩,
      hstored.toSameMap.injective h.injective, fun j hj => ?_, by omega⟩
    refine hstored.toSameMap.mapped ?_
    rw [show i + 1 + j = i + (j + 1) by omega]
    exact h.buffer (j + 1) (by omega)
  · show u.byte _ = _
    split
    · rename_i hend
      rw [if_pos hend] at hstored
      refine hstored.byte_rest h.injective hcall.buffer (Nat.zero_le _) ?_ (by simp)
      exact (h.buffer 0 (by omega)).read
    · rename_i hend
      rw [if_neg hend] at hstored
      have := hstored.byte_written (i := 0) (by simp)
      rwa [show BitVec.ofNat 32 0 = 0#32 from rfl, BitVec.add_zero] at this
  · intro j hj
    have hother := h.buffer (j + 1) (by omega)
    rw [show i + (j + 1) = i + 1 + j by omega] at hother
    refine hstored.byte_rest h.injective hcall.buffer hlen hother.read fun k hk heq => ?_
    obtain rfl : k = 0 := by omega
    rw [show BitVec.ofNat 32 0 = 0#32 from rfl, BitVec.add_zero] at heq
    have := Word.add_ofNat_inj (by omega) (by omega) heq
    omega

/-- The loop ends on a line exactly if a newline is where that of the line should go. -/
theorem Reading.loop (h : Reading buffer id i (l.length + 1) s) (ch : Byte) (fuel : ℕ)
    (hl : ∀ c ∈ l, c ≠ EOF ∧ endsLine c = false) (hs : s.input = l ++ 10 :: rest) :
    (∃ s', readLoop ch fuel buffer id (l.length + 1) i s = some (i + l.length, s') ∧
      s'.input = rest) ↔
    s.memory.byte (buffer + BitVec.ofNat 32 (i + l.length)) = 10 := by
  induction l generalizing i s with
  | nil =>
    obtain ⟨r', s', hrun, hinput, -, hbyte, -⟩ := h.step ch fuel (by decide) hs
    have hsame : s'.memory.byte (buffer + BitVec.ofNat 32 i) =
        s.memory.byte (buffer + BitVec.ofNat 32 i) := hbyte
    simp only [List.length_nil, readLoop, hrun, hsame, Nat.add_zero]
    split
    · rename_i hnew
      exact iff_of_true ⟨s', rfl, hinput⟩ hnew
    · rename_i hnew
      refine iff_of_false ?_ hnew
      rintro ⟨_, hnone, -⟩
      cases hnone
  | cons c l ih =>
    obtain ⟨hc, hend⟩ := hl c (by simp)
    obtain ⟨r', s', hrun, hinput, hnext, hbyte, hothers⟩ := h.step ch fuel hc hs
    have hnew : s'.memory.byte (buffer + BitVec.ofNat 32 i) ≠ 10 := by
      rw [hbyte, hend]
      rintro rfl
      exact absurd hend (by decide)
    have hrest := ih hnext (fun c hc => hl c (by simp [hc])) hinput
    rw [hothers l.length (by simp)] at hrest
    rw [show i + (c :: l).length = i + 1 + l.length by simp; omega, ← hrest]
    simp only [List.length_cons, readLoop, hrun, if_neg hnew]

end Terminal

variable {ss : Terminal} {buffer id : BitVec 32} {l rest : List Byte}

/-- A call keeps its promise where it waits, where the stream ends, and where the line does not
begin with its end and has nothing new behind a zero byte. A loop over a line ends only if the
newline is in the buffer already. -/
theorem read_waits_iff (h : ConsoleCall r s d) (hloop : Terminal.Reading buffer id 0 (l.length + 1) ss)
    (hl : ∀ c ∈ l, c ≠ EOF ∧ endsLine c = false) (hline : ss.input = l ++ 10 :: rest)
    (ch : Byte) (fuel : ℕ) :
    (WaitsForOne ch fuel r s ↔ (Answered (r 5).toNat s.input →
      terminator (r 5).toNat s.input = some 1 ∨ Fortunate r s)) ∧
    ((∃ ss', Terminal.readLoop ch fuel buffer id (l.length + 1) 0 ss = some (l.length, ss') ∧
      ss'.input = rest) ↔ ss.memory.byte (buffer + BitVec.ofNat 32 l.length) = 10) := by
  refine ⟨waitsForOne_iff h ch fuel, ?_⟩
  have := hloop.loop ch fuel hl hline
  rwa [Nat.zero_add] at this

theorem consoleCall_sample (mainMemory : Bytes.Memory) (input : List Byte) :
    ConsoleCall (callRegisters 6 0 3 2) (.sample mainMemory input) ⟨2, .host 0 0 0⟩ where
  code := rfl
  charCount := by decide
  descriptor := rfl
  console := rfl
  injective := Devices.sample_injective _ _ _
  buffer := Devices.sample_buffer _ _ _ (by decide) _

/-- A memory with a newline at `2`. -/
def withNewline : Bytes.Memory := fun a => if a = 2 then 10 else 32

theorem reading_sample (mainMemory : Bytes.Memory) (input : List Byte) :
    Terminal.Reading 0 2 0 3 (.sample mainMemory input) where
  descriptor := ⟨_, rfl, rfl⟩
  injective := Devices.sample_injective _ _ _
  buffer j hj := by
    rw [Nat.zero_add]
    exact Devices.sample_buffer (n := 3) _ _ _ (by decide) _ j hj
  small := by decide

theorem read_waits_line :
    WaitsForOne 0 0 (callRegisters 6 0 3 2) (.sample withNewline [65, 66, 10]) ∧
    ∃ ss, Terminal.readLoop 0 0 0 2 3 0 (.sample withNewline [65, 66, 10]) = some (2, ss) ∧
      ss.input = [] := by
  have h := read_waits_iff (l := [65, 66]) (consoleCall_sample withNewline [65, 66, 10])
    (reading_sample withNewline [65, 66, 10]) (by decide)
    (show (Terminal.sample withNewline [65, 66, 10]).input = [65, 66] ++ 10 :: [] from rfl) 0 0
  refine ⟨h.1.mpr fun _ => .inr ⟨by decide, ?_⟩, h.2.mpr (by decide)⟩
  intro i j hij hj hi
  have hj : j < 2 := hj
  have hnz : ∀ i < 2, (line 3 [65, 66, 10]).getD i 0 ≠ 0 := by decide
  exact absurd hi (hnz i (by omega))

/-- A line without characters is reported as none. -/
theorem read_waits_fails :
    ¬WaitsForOne 0 0 (callRegisters 6 0 3 2) (.sample (fun _ => 32) [10]) := by
  intro h
  have hzero : ((Terminal.services 0).exceptionHandler 0 .SyscallException
      (callRegisters 6 0 3 2, .sample (fun _ => 32) [10])).map (fun a => a.2.1 2) = some 0 := by
    decide +kernel
  obtain ⟨⟨_, r', s'⟩, hrun, hresult⟩ := Option.map_eq_some_iff.mp hzero
  rcases h r' s' hrun with ⟨hend, -⟩ | ⟨k, hk, hk3, -, hsome, -⟩
  · exact absurd (hresult.symm.trans hend) (by decide)
  · have hk3 : k ≤ 3 := hk3
    have hzero : BitVec.ofNat 32 0 = BitVec.ofNat 32 k := hresult.symm.trans hsome
    have := Word.ofNat_inj (by omega) (by omega) hzero
    omega

end Nachos
