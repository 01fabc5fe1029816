import Nachos.Threads.ConsoleRead
import Nachos.Userprog.UserCopy

/-!
# The console of one program

`SynchConsole::Read` and `Write` called by a program that has the console for itself. What will be
typed is given beforehand; where it ends, a call waits and does not come back.
-/
namespace Nachos

open Bytes (Byte)
open Command (onSecond)

namespace ConsoleRead

/-- The loop goes on. -/
def Wants (r : ConsoleRead) : Prop := (r.loop : Int) < r.numBytes ∧ r.eolncond = false

instance (r : ConsoleRead) : Decidable r.Wants := inferInstanceAs (Decidable (_ ∧ _))

/-- The loop of `Read`: the call as it ends, and what is left of the input. -/
def readFrom : List Byte → ConsoleRead → Option (ConsoleRead × List Byte)
  | [], r => if r.Wants then none else some (r, [])
  | ch :: input, r =>
    if r.Wants then
      if ch = EOF then readFrom input { r with ch := ch } else readFrom input (r.store ch)
    else some (r, ch :: input)

def endsLine (c : Byte) : Bool := c = 10 || c = 1

/-- The characters that are typed: a byte that looks like `EOF` is none. -/
def typed (input : List Byte) : List Byte := input.filter (· ≠ EOF)

/-- The next characters of the line, up to `n`. -/
def line (n : ℕ) (input : List Byte) : List Byte :=
  ((typed input).takeWhile fun c => !endsLine c).take n

/-- The character that ends the line before there are `n`. -/
def terminator (n : ℕ) (input : List Byte) : Option Byte :=
  if (line n input).length < n then (typed input)[(line n input).length]? else none

/-- Enough is typed for a call to come back. -/
def Answered (n : ℕ) (input : List Byte) : Prop :=
  (line n input).length = n ∨ (terminator n input).isSome

variable {r r' : ConsoleRead} {input rest : List Byte} {c ch : Byte} {n : ℕ}

theorem not_wants_store (hc : endsLine c = true) : ¬(r.store c).Wants := by
  intro h
  simp only [endsLine, Bool.or_eq_true, decide_eq_true_eq] at hc
  rw [Wants, store, if_pos hc] at h
  exact absurd h.2 (by simp)

theorem store_of_not (hc : endsLine c = false) :
    r.store c = { r with ch := c, into := r.into.set r.loop c, loop := r.loop + 1 } := by
  simp only [endsLine, Bool.or_eq_false_iff, decide_eq_false_iff_not] at hc
  rw [store, if_neg (not_or.mpr hc)]

/-- A sequential call consumes what a call in a run does: the bytes up to some point, without
those that look like `EOF`. -/
theorem readFrom_consumes (hs : r.Sound) (h : readFrom input r = some (r', rest)) :
    r'.Sound ∧ ¬r'.Wants ∧ ∃ read, input = read ++ rest ∧
      r'.consumed = r.consumed ++ read.filter (· ≠ EOF) := by
  induction input generalizing r with
  | nil =>
    rw [readFrom] at h
    split at h
    · cases h
    · cases h
      exact ⟨hs, ‹_›, [], rfl, by simp⟩
  | cons c input ih =>
    rw [readFrom] at h
    by_cases hw : r.Wants
    · have hlength := hs.length
      have hlt : r.loop < r.into.length := by
        have := hw.1
        omega
      rw [if_pos hw] at h
      split at h
      · rename_i hc
        have hskip : ({ r with ch := c } : ConsoleRead).Sound :=
          ⟨hs.length, hs.loop_le, hs.rest, fun he => by simp [hw.2] at he⟩
        obtain ⟨hs', hw', read, rfl, hread⟩ := ih hskip h
        refine ⟨hs', hw', c :: read, rfl, ?_⟩
        rw [hread]
        simp [consumed, stored, hw.2, hc]
      · rename_i hc
        obtain ⟨hs', hw', read, rfl, hread⟩ := ih (hs.store hlt hw.2 c) h
        refine ⟨hs', hw', c :: read, rfl, ?_⟩
        rw [hread, consumed_store hlt hw.2, List.append_assoc]
        simp [hc]
    · rw [if_neg hw] at h
      cases h
      exact ⟨hs, hw, [], rfl, by simp⟩

/-! ## One line -/

theorem line_cons (n : ℕ) (c : Byte) (input : List Byte) : line (n + 1) (c :: input) =
    if c = EOF then line (n + 1) input else if endsLine c then [] else c :: line n input := by
  unfold line typed
  rw [List.filter_cons]
  by_cases hc : c = EOF
  · simp [hc]
  · cases he : endsLine c <;> simp [hc, he]

theorem terminator_cons (n : ℕ) (c : Byte) (input : List Byte) :
    terminator (n + 1) (c :: input) = if c = EOF then terminator (n + 1) input
      else if endsLine c then some c else terminator n input := by
  have hline := line_cons n c input
  unfold terminator
  by_cases hc : c = EOF
  · rw [if_pos hc] at hline ⊢
    rw [hline]
    simp [typed, hc]
  · rw [if_neg hc] at hline ⊢
    cases he : endsLine c <;> simp [hline, he, typed, hc]

@[simp] theorem line_nil (n : ℕ) : line n [] = [] := by simp [line, typed]

@[simp] theorem line_zero (input : List Byte) : line 0 input = [] := by simp [line]

@[simp] theorem terminator_nil (n : ℕ) : terminator n [] = none := by simp [terminator, typed]

@[simp] theorem terminator_zero (input : List Byte) : terminator 0 input = none := by
  simp [terminator]

theorem answered_zero (input : List Byte) : Answered 0 input := .inl (by simp)

theorem not_answered_nil (n : ℕ) : ¬Answered (n + 1) [] := by
  simp [Answered]

theorem answered_cons (n : ℕ) (c : Byte) (input : List Byte) : Answered (n + 1) (c :: input) ↔
    if c = EOF then Answered (n + 1) input else endsLine c = true ∨ Answered n input := by
  rw [Answered, line_cons, terminator_cons]
  by_cases hc : c = EOF
  · simp [hc, Answered]
  · cases he : endsLine c <;> simp [hc, Answered]

theorem stored_store (hl : r.loop < r.into.length) (he : r.eolncond = false)
    (hc : endsLine c = false) : (r.store c).stored = r.stored ++ [c] := by
  have hconsumed : (r.store c).consumed = r.consumed ++ [c] := consumed_store hl he
  rw [store_of_not hc] at hconsumed ⊢
  simpa [consumed, he] using hconsumed

/-- What a call has to come back with, `n` characters short of what it was asked for. -/
structure Completes (r r' : ConsoleRead) (n : ℕ) (input : List Byte) : Prop where
  sound : r'.Sound
  numBytes : r'.numBytes = r.numBytes
  stored : r'.stored = r.stored ++ line n input
  result : r'.result = if terminator n input = some 1 then -1 else (r'.loop : Int)

theorem readFrom_completes (hs : r.Sound) (he : r.eolncond = false)
    (hn : r.numBytes = r.loop + n) (hch : n = 0 → r.ch ≠ 1) (ha : Answered n input) :
    ∃ r' rest, readFrom input r = some (r', rest) ∧ r.Completes r' n input := by
  induction input generalizing r n with
  | nil =>
    cases n with
    | zero =>
      have hw : ¬r.Wants := fun h => by have := h.1; omega
      refine ⟨r, [], by rw [readFrom, if_neg hw], hs, rfl, by simp, ?_⟩
      rw [result, if_neg (hch rfl)]
      simp
    | succ n => exact absurd ha (not_answered_nil n)
  | cons c input ih =>
    cases n with
    | zero =>
      have hw : ¬r.Wants := fun h => by have := h.1; omega
      refine ⟨r, c :: input, by rw [readFrom, if_neg hw], hs, rfl, by simp, ?_⟩
      rw [result, if_neg (hch rfl)]
      simp
    | succ n =>
      have hw : r.Wants := ⟨by omega, he⟩
      have hlt : r.loop < r.into.length := by
        have := hs.length
        omega
      rw [answered_cons] at ha
      rw [readFrom, if_pos hw]
      by_cases hc : c = EOF
      · rw [if_pos hc] at ha ⊢
        have hskip : ({ r with ch := c } : ConsoleRead).Sound :=
          ⟨hs.length, hs.loop_le, hs.rest, fun h => by simp [he] at h⟩
        obtain ⟨r', rest, hrun, h⟩ := ih hskip he hn (fun h => absurd h (by omega)) ha
        refine ⟨r', rest, hrun, h.sound, h.numBytes, ?_, ?_⟩
        · rw [line_cons, if_pos hc]
          exact h.stored
        · rw [terminator_cons, if_pos hc]
          exact h.result
      · rw [if_neg hc] at ha ⊢
        cases hend : endsLine c with
        | true =>
          have hdone := not_wants_store (r := r) hend
          have hstored : (r.store c).stored = r.stored := by
            simp only [endsLine, Bool.or_eq_true, decide_eq_true_eq] at hend
            rw [store, if_pos hend]
            rfl
          refine ⟨r.store c, input, ?_, hs.store hlt he c, numBytes_store, ?_, ?_⟩
          · cases input with
            | nil => rw [readFrom, if_neg hdone]
            | cons => rw [readFrom, if_neg hdone]
          · rw [line_cons, if_neg hc, hend, hstored]
            simp
          · rw [terminator_cons, if_neg hc, hend]
            simp only [endsLine, Bool.or_eq_true, decide_eq_true_eq] at hend
            rw [result, store, if_pos hend]
            simp
        | false =>
          have hstore := store_of_not (r := r) hend
          have hne : c ≠ 1 := by
            rintro rfl
            exact absurd hend (by decide)
          obtain ⟨r', rest, hrun, h⟩ := ih (r := r.store c) (n := n) (hs.store hlt he c)
            (by rw [hstore]; exact he) (by rw [hstore]; push_cast; omega)
            (fun _ => by rw [hstore]; exact hne) (by simpa [hend] using ha)
          refine ⟨r', rest, hrun, h.sound, h.numBytes.trans numBytes_store, ?_, ?_⟩
          · rw [h.stored, stored_store hlt he hend, line_cons, if_neg hc, hend]
            simp
          · rw [terminator_cons, if_neg hc, hend]
            exact h.result

/-- Without enough input the call waits. -/
theorem readFrom_waits (he : r.eolncond = false) (hn : r.numBytes = r.loop + n)
    (ha : ¬Answered n input) : readFrom input r = none := by
  induction input generalizing r n with
  | nil =>
    cases n with
    | zero => exact absurd (answered_zero _) ha
    | succ n => rw [readFrom, if_pos ⟨by omega, he⟩]
  | cons c input ih =>
    cases n with
    | zero => exact absurd (answered_zero _) ha
    | succ n =>
      rw [answered_cons] at ha
      rw [readFrom, if_pos ⟨by omega, he⟩]
      by_cases hc : c = EOF
      · rw [if_pos hc] at ha ⊢
        exact ih he hn ha
      · rw [if_neg hc] at ha ⊢
        obtain ⟨hend, ha⟩ := not_or.mp ha
        rw [Bool.not_eq_true] at hend
        have hstore := store_of_not (r := r) hend
        exact ih (by rw [hstore]; exact he) (by rw [hstore]; push_cast; omega) ha

/-- A call for `n` characters stores those of the line, and zeros behind them. -/
theorem readFrom_start (hn : 0 < n) (ch : Byte) (ha : Answered n input) : ∃ r' rest,
    readFrom input (start n ch) = some (r', rest) ∧
    r'.into = line n input ++ List.replicate (n - (line n input).length) 0 ∧
    r'.result = if terminator n input = some 1 then -1 else ((line n input).length : Int) := by
  obtain ⟨r', rest, hrun, h⟩ := readFrom_completes (sound_start n ch) rfl (by simp [start])
    (fun h0 => absurd h0 hn.ne') ha
  have hstored : r'.stored = line n input := by
    rw [h.stored]
    simp [stored, start]
  have hloop : r'.loop = (line n input).length := by
    rw [← hstored, h.sound.length_stored]
  have hlength : r'.into.length = n := by
    rw [h.sound.length, h.numBytes]
    simp [start]
  refine ⟨r', rest, hrun, ?_, ?_⟩
  · rw [h.sound.into_eq, hstored, hlength, hloop]
  · rw [h.result, hloop]

/-- What is in `ch` before the first character does not matter. -/
theorem readFrom_ch (hw : r.Wants) (ch : Byte) (input : List Byte) :
    readFrom input { r with ch := ch } = readFrom input r := by
  have hw' : ({ r with ch := ch } : ConsoleRead).Wants := hw
  cases input with
  | nil => rw [readFrom, readFrom, if_pos hw, if_pos hw']
  | cons c input =>
    have hstore : ({ r with ch := ch } : ConsoleRead).store c = r.store c := by
      unfold store
      split <;> rfl
    rw [readFrom, readFrom, if_pos hw, if_pos hw', hstore]

end ConsoleRead

/-- What the handlers for the console work on. The keyboard will deliver `input`. -/
structure Terminal extends Devices where
  input : List Byte

namespace Terminal

instance : HasMemory Terminal where
  memory s := s.memory
  setMemory s u := { s with memory := u }
  memory_setMemory _ _ := rfl
  setMemory_setMemory _ _ _ := rfl
  setMemory_memory _ := rfl

def onDevices {α : Type} (c : Command Devices α) : Command Terminal α := fun s =>
  (c s.toDevices).map fun r => (r.1, { s with toDevices := r.2 })

/-- `SynchConsole::Read`. The byte is what happens to be in its `ch`. -/
def consoleRead (ch : Byte) (numBytes : BitVec 32) : Command Terminal (BitVec 32 × List Byte) :=
  fun s => (ConsoleRead.readFrom s.input (.start numBytes.toInt ch)).map fun r =>
    ((BitVec.ofInt 32 r.1.result, r.1.into), { s with input := r.2 })

/-- What the handlers for the console need of the kernel. -/
def services (ch : Byte) : Services Terminal :=
  { Services.silent with
    readMem := fun addr => onDevices (Devices.readMem addr)
    writeMem := fun addr value => onDevices (Devices.writeMem addr value)
    consoleRead := consoleRead ch
    consoleWrite := fun bs => onDevices (Devices.consoleWrite bs)
    openf := fun id => onDevices (Devices.fileType id)
    getCurrentPos := fun id => onDevices (Devices.getCurrentPos id) }

variable {s s' : Terminal} {r r' : Registers} {c ch : Byte} {input : List Byte}

theorem readsMemory (ch : Byte) : (services ch).ReadsMemory := by
  intro addr s
  simp only [services, onDevices, Devices.readMem]
  cases h : s.memory.readByte addr <;> simp [HasMemory.setMemory]

theorem writesMemory (ch : Byte) : (services ch).WritesMemory := by
  intro addr value s
  simp only [services, onDevices, Devices.writeMem]
  cases h : s.memory.writeByte addr value <;> simp [HasMemory.setMemory]

/-! ## One character -/

/-- What `Read(&c, 1)` leaves in `c`. -/
def charRead (c : Byte) : Byte := if ConsoleRead.endsLine c then 0 else c

theorem wants_one (ch : Byte) : (ConsoleRead.start 1 ch).Wants := ⟨Int.zero_lt_one, rfl⟩

theorem readOne_of_none (h : ConsoleRead.readFrom s.input (.start 1 ch) = none) :
    (services ch).readOne (r, s) = none := by
  refine Command.bind_of_none (Command.onSecond_of_none ?_)
  show (ConsoleRead.readFrom s.input (.start 1 ch)).map _ = none
  rw [h]
  rfl

theorem readOne_of_some {call : ConsoleRead}
    (h : ConsoleRead.readFrom s.input (.start 1 ch) = some (call, input)) :
    (services ch).readOne (r, s) = some (call.into.getD 0 0, r, { s with input := input }) := by
  have hread : onSecond ((services ch).consoleRead 1) (r, s) =
      some ((BitVec.ofInt 32 call.result, call.into), r, { s with input := input }) := by
    refine Command.onSecond_of_some ?_
    show (ConsoleRead.readFrom s.input (.start 1 ch)).map _ = _
    rw [h]
    rfl
  rw [Services.readOne, Command.bind_of_some hread]
  rfl

/-- Nothing is typed. -/
theorem readOne_nil (hs : s.input = []) : (services ch).readOne (r, s) = none := by
  apply readOne_of_none
  rw [hs, ConsoleRead.readFrom, if_pos (wants_one ch)]

/-- A byte that looks like `EOF` is passed over. -/
theorem readOne_eof (hs : s.input = EOF :: input) :
    (services ch).readOne (r, s) = (services ch).readOne (r, { s with input := input }) := by
  have hskip : ConsoleRead.readFrom s.input (.start 1 ch) =
      ConsoleRead.readFrom input (.start 1 ch) := by
    rw [hs, ConsoleRead.readFrom, if_pos (wants_one ch), if_pos rfl,
      ConsoleRead.readFrom_ch (wants_one ch)]
  cases h : ConsoleRead.readFrom input (.start 1 ch) with
  | none => rw [readOne_of_none (hskip.trans h), readOne_of_none h]
  | some call => rw [readOne_of_some (hskip.trans h), readOne_of_some h]

theorem readFrom_one (hc : c ≠ EOF) (ch : Byte) (input : List Byte) :
    ConsoleRead.readFrom (c :: input) (.start 1 ch) =
      some ((ConsoleRead.start 1 ch).store c, input) := by
  have hdone : ¬((ConsoleRead.start 1 ch).store c).Wants := by
    cases he : ConsoleRead.endsLine c with
    | true => exact ConsoleRead.not_wants_store he
    | false =>
      rw [ConsoleRead.store_of_not he]
      exact fun h => absurd h.1 (lt_irrefl (1 : Int))
  rw [ConsoleRead.readFrom, if_pos (wants_one ch), if_neg hc]
  cases input with
  | nil => rw [ConsoleRead.readFrom, if_neg hdone]
  | cons => rw [ConsoleRead.readFrom, if_neg hdone]

theorem readOne_char (hs : s.input = c :: input) (hc : c ≠ EOF) :
    (services ch).readOne (r, s) = some (charRead c, r, { s with input := input }) := by
  rw [readOne_of_some (hs ▸ readFrom_one hc ch input)]
  unfold charRead ConsoleRead.store ConsoleRead.endsLine
  split <;> simp_all [ConsoleRead.start]

/-- A call takes at least one byte from the input. -/
theorem readOne_lt (h : (services ch).readOne (r, s) = some (c, r', s')) :
    s'.input.length < s.input.length := by
  induction hs : s.input generalizing s with
  | nil => rw [readOne_nil hs] at h; cases h
  | cons a input ih =>
    by_cases ha : a = EOF
    · subst ha
      rw [readOne_eof hs] at h
      have := ih h rfl
      rw [List.length_cons]
      exact Nat.lt_succ_of_lt this
    · rw [readOne_char hs ha] at h
      cases h
      simp

/-- A program of four pages with the console as descriptor `2`. -/
def sample (mainMemory : Bytes.Memory) (input : List Byte) : Terminal where
  toDevices := .sample mainMemory 2 ⟨[], HostFile.small_nil⟩
  input := input

end Terminal

end Nachos
