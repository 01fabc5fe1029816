import Nachos.Lib.Bytes
import Nachos.Threads.Device

/-!
# The synchronous console

`SynchConsole` (`synchcons.cc`) over the simulated console (`console.cc`), called by any number
of threads. When the completion of a character or the next poll is due is left open, and so is
whether a poll finds that the host has a character.
-/
namespace Nachos

open Concurrent
open Bytes (Byte)

/-- `EOF` as a `char`. -/
def EOF : Byte := 0xFF

/-- The four semaphores of `synchcons.cc`. -/
inductive ConsoleSem
  | synchReadAvail
  | synchWriteAvail
  | RLineBlock
  | WLineBlock
  deriving DecidableEq

/-- `class Console`, with the two files of the host. `writeInts` counts the interrupts
`ConsoleWriteInt` that are scheduled; `keyboard` is what the host has not delivered yet. -/
structure Console where
  putBusy : Bool
  incoming : Byte
  writeInts : ℕ
  display : List Byte
  keyboard : List Byte

/-- The poll knows whether `PollFile` finds a character. -/
inductive ConsoleInt
  | writeDone
  | readPoll (polled : Bool)

namespace Console

/-- `Console::PutChar`, unless `ASSERT(putBusy == FALSE)` fails. -/
def putChar (c : Console) (ch : Byte) : Option Console :=
  if c.putBusy then none
  else some { c with
    display := c.display ++ [ch], putBusy := true, writeInts := c.writeInts + 1 }

/-- `Console::WriteDone` with `SynchWriteFunct`. -/
def writeDone (c : Console) : Option (Console × Option ConsoleSem) :=
  if c.writeInts = 0 then none
  else some ({ c with writeInts := c.writeInts - 1, putBusy := false }, some .synchWriteAvail)

/-- `Console::GetChar`. -/
def getChar (c : Console) : Byte × Console := (c.incoming, { c with incoming := EOF })

/-- `Console::CheckCharAvail` with `SynchReadFunct`. It schedules itself again, so that a poll is
always pending. -/
def checkCharAvail (c : Console) (polled : Bool) : Option (Console × Option ConsoleSem) :=
  if c.incoming ≠ EOF ∨ polled = false then some (c, none)
  else
    match c.keyboard with
    | [] => none
    | ch :: rest => some ({ c with incoming := ch, keyboard := rest }, some .synchReadAvail)

def interrupt : Handlers ConsoleSem Console ConsoleInt
  | .writeDone => writeDone
  | .readPoll polled => fun c => c.checkCharAvail polled

end Console

/-- The arguments of `Write`. The caller's buffer has the bytes that are to be written. -/
structure ConsoleWrite where
  from' : List Byte
  numBytes : Int
  enough : numBytes ≤ from'.length
  deriving DecidableEq

namespace ConsoleWrite

/-- `from[loop]`. -/
def char (w : ConsoleWrite) (loop : ℕ) (h : (loop : Int) < w.numBytes) : Byte :=
  w.from'.get ⟨loop, by have := w.enough; omega⟩

/-- What a call is to put on the display. -/
def bytes (w : ConsoleWrite) : List Byte := w.from'.take w.numBytes.toNat

theorem length_bytes (w : ConsoleWrite) : w.bytes.length = w.numBytes.toNat := by
  have := w.enough
  simp only [bytes, List.length_take]
  omega

theorem bytes_take_succ {w : ConsoleWrite} {loop : ℕ} (h : (loop : Int) < w.numBytes) :
    w.bytes.take (loop + 1) = w.bytes.take loop ++ [w.char loop h] := by
  have hlt : loop < w.bytes.length := by
    rw [length_bytes]
    omega
  rw [List.take_succ_eq_append_getElem hlt]
  simp [bytes, char]

end ConsoleWrite

/-- The variables of `Read`. -/
structure ConsoleRead where
  numBytes : Int
  into : List Byte
  loop : ℕ
  eolncond : Bool
  ch : Byte
  deriving DecidableEq

namespace ConsoleRead

/-- The buffer is cleared; `ch` is not initialised. -/
def start (numBytes : Int) (ch : Byte) : ConsoleRead :=
  ⟨numBytes, List.replicate numBytes.toNat 0, 0, false, ch⟩

/-- What `Read` does with a character that is not `EOF`: newline and `^A` end the line. -/
def store (r : ConsoleRead) (ch : Byte) : ConsoleRead :=
  if ch = 10 ∨ ch = 1 then { r with ch := ch, eolncond := true }
  else { r with ch := ch, into := r.into.set r.loop ch, loop := r.loop + 1 }

def result (r : ConsoleRead) : Int := if r.ch = 1 then -1 else r.loop

end ConsoleRead

/-- Where a thread is. -/
inductive ConsolePc
  | user
  | writeLock (w : ConsoleWrite)
  | writeLoop (w : ConsoleWrite) (loop : ℕ)
  | writeWait (w : ConsoleWrite) (loop : ℕ)
  | writeUnlock (w : ConsoleWrite)
  | writeReturn (w : ConsoleWrite)
  | readLock (r : ConsoleRead)
  | readLoop (r : ConsoleRead)
  | readWait (r : ConsoleRead)
  | readChar (r : ConsoleRead)
  | readUnlock (r : ConsoleRead)
  | readReturn (r : ConsoleRead)
  | aborted
  | tick
  | yield
  | fork
  | exit

inductive ConsoleEvent
  | write (w : ConsoleWrite)
  | putChar (ch : Byte)
  | assertFailed
  | wrote (w : ConsoleWrite) (result : Int)
  | read (numBytes : Int)
  | getChar (ch : Byte)
  | readDone (r : ConsoleRead) (result : Int)
  deriving DecidableEq

/-- What a thread does next. The byte is what happens to be in `ch`. -/
inductive ConsoleChoice
  | write (w : ConsoleWrite)
  | read (numBytes : Int) (ch : Byte)
  | tick
  | yield
  | fork
  | exit

namespace SynchConsole

def user (c : ConsoleChoice) (d : Console) : Option (ConsolePc × Console × List ConsoleEvent) :=
  match c with
  | .write w => some (.writeLock w, d, [.write w])
  | .read numBytes ch => some (.readLock (.start numBytes ch), d, [.read numBytes])
  | .tick => some (.tick, d, [])
  | .yield => some (.yield, d, [])
  | .fork => some (.fork, d, [])
  | .exit => some (.exit, d, [])

/-- The loop of `SynchConsole::Write`, up to `synchWriteAvail->P()`. -/
def writeLoop (w : ConsoleWrite) (loop : ℕ) (d : Console) :
    ConsolePc × Console × List ConsoleEvent :=
  if h : (loop : Int) < w.numBytes then
    match d.putChar (w.char loop h) with
    | some d' => (.writeWait w loop, d', [.putChar (w.char loop h)])
    | none => (.aborted, d, [.assertFailed])
  else (.writeUnlock w, d, [])

/-- The condition of the loop of `SynchConsole::Read`. -/
def readLoop (r : ConsoleRead) : ConsolePc :=
  if (r.loop : Int) < r.numBytes ∧ r.eolncond = false then .readWait r else .readUnlock r

/-- Its body after `synchReadAvail->P()`. -/
def readChar (r : ConsoleRead) (d : Console) : ConsolePc × Console × List ConsoleEvent :=
  let (ch, d') := d.getChar
  if ch = EOF then (.readWait { r with ch := ch }, d', [.getChar ch])
  else (.readLoop (r.store ch), d', [.getChar ch])

def code : ConsolePc → Instr ConsoleSem ConsolePc Console ConsoleEvent ConsoleChoice
  | .user => .act user
  | .writeLock w => .P .WLineBlock (.writeLoop w 0)
  | .writeLoop w loop => .act fun _ d => some (writeLoop w loop d)
  | .writeWait w loop => .P .synchWriteAvail (.writeLoop w (loop + 1))
  | .writeUnlock w => .V .WLineBlock (.writeReturn w)
  | .writeReturn w => .act fun _ d => some (.user, d, [.wrote w w.numBytes])
  | .readLock r => .P .RLineBlock (.readLoop r)
  | .readLoop r => .act fun _ d => some (readLoop r, d, [])
  | .readWait r => .P .synchReadAvail (.readChar r)
  | .readChar r => .act fun _ d => some (readChar r d)
  | .readUnlock r => .V .RLineBlock (.readReturn r)
  | .readReturn r => .act fun _ d => some (.user, d, [.readDone r r.result])
  | .aborted => .stop
  | .tick => .tick .user
  | .yield => .yield .user
  | .fork => .fork .user (fun _ => .user) fun _ d => d
  | .exit => .finish

/-- The threads of a machine whose host will deliver `input`. -/
def program (input : List Byte) :
    Program ConsoleSem ConsolePc Console ConsoleEvent ConsoleChoice where
  code _ := code
  value s := match s with
    | .synchReadAvail | .synchWriteAvail => 0
    | .RLineBlock | .WLineBlock => 1
  start := .user
  data := ⟨false, EOF, 0, [], input⟩
  device _ := false
  switchOut _ d := d
  switchIn _ d := d
  interrupt d := d

/-! ## What a step can do -/

abbrev Atomic := State ConsoleSem ConsolePc Console

/-- Outside of `Read` and `Write`. -/
def outside : ConsolePc → Bool
  | .user | .tick | .yield | .fork | .exit => true
  | _ => false

/-- The moves of thread `t`, from the semaphore values `v` and the console `d`. -/
inductive Move (t : Tid) (v : ConsoleSem → Int) (d : Console) :
    ConsolePc → List (Event ConsoleSem ConsoleEvent) → ConsolePc → (ConsoleSem → Int) → Console →
      Prop
  | roam {p k : ConsolePc} (hp : outside p = true) (hk : outside k = true) : Move t v d p [] k v d
  | callWrite (w : ConsoleWrite) : Move t v d .user [.act t (.write w)] (.writeLock w) v d
  | lockWrite {w : ConsoleWrite} (hv : v .WLineBlock ≠ 0) :
      Move t v d (.writeLock w) [.P t .WLineBlock] (.writeLoop w 0)
        (Function.update v .WLineBlock (decr (v .WLineBlock))) d
  | put {w : ConsoleWrite} {loop : ℕ} (h : (loop : Int) < w.numBytes) (hb : d.putBusy = false) :
      Move t v d (.writeLoop w loop) [.act t (.putChar (w.char loop h))] (.writeWait w loop) v
        { d with
          display := d.display ++ [w.char loop h], putBusy := true, writeInts := d.writeInts + 1 }
  | assertFails {w : ConsoleWrite} {loop : ℕ} (hb : d.putBusy = true) :
      Move t v d (.writeLoop w loop) [.act t .assertFailed] .aborted v d
  | endWrite {w : ConsoleWrite} {loop : ℕ} (h : ¬(loop : Int) < w.numBytes) :
      Move t v d (.writeLoop w loop) [] (.writeUnlock w) v d
  | woken {w : ConsoleWrite} {loop : ℕ} (hv : v .synchWriteAvail ≠ 0) :
      Move t v d (.writeWait w loop) [.P t .synchWriteAvail] (.writeLoop w (loop + 1))
        (Function.update v .synchWriteAvail (decr (v .synchWriteAvail))) d
  | unlockWrite {w : ConsoleWrite} :
      Move t v d (.writeUnlock w) [.V (some t) .WLineBlock] (.writeReturn w)
        (Function.update v .WLineBlock (incr (v .WLineBlock))) d
  | returnWrite {w : ConsoleWrite} :
      Move t v d (.writeReturn w) [.act t (.wrote w w.numBytes)] .user v d
  | callRead (numBytes : Int) (ch : Byte) :
      Move t v d .user [.act t (.read numBytes)] (.readLock (.start numBytes ch)) v d
  | lockRead {r : ConsoleRead} (hv : v .RLineBlock ≠ 0) :
      Move t v d (.readLock r) [.P t .RLineBlock] (.readLoop r)
        (Function.update v .RLineBlock (decr (v .RLineBlock))) d
  | moreRead {r : ConsoleRead} (h : (r.loop : Int) < r.numBytes) (he : r.eolncond = false) :
      Move t v d (.readLoop r) [] (.readWait r) v d
  | endRead {r : ConsoleRead} : Move t v d (.readLoop r) [] (.readUnlock r) v d
  | ready {r : ConsoleRead} (hv : v .synchReadAvail ≠ 0) :
      Move t v d (.readWait r) [.P t .synchReadAvail] (.readChar r)
        (Function.update v .synchReadAvail (decr (v .synchReadAvail))) d
  | getNone {r : ConsoleRead} (h : d.incoming = EOF) :
      Move t v d (.readChar r) [.act t (.getChar EOF)] (.readWait { r with ch := EOF }) v d
  | get {r : ConsoleRead} (h : d.incoming ≠ EOF) :
      Move t v d (.readChar r) [.act t (.getChar d.incoming)] (.readLoop (r.store d.incoming)) v
        { d with incoming := EOF }
  | unlockRead {r : ConsoleRead} :
      Move t v d (.readUnlock r) [.V (some t) .RLineBlock] (.readReturn r)
        (Function.update v .RLineBlock (incr (v .RLineBlock))) d
  | returnRead {r : ConsoleRead} :
      Move t v d (.readReturn r) [.act t (.readDone r r.result)] .user v d

/-- What the console does by itself. -/
inductive Fires (v : ConsoleSem → Int) (d : Console) :
    List (Event ConsoleSem ConsoleEvent) → (ConsoleSem → Int) → Console → Prop
  | nothing : Fires v d [] v d
  | writeDone (h : d.writeInts ≠ 0) :
      Fires v d [.V none .synchWriteAvail]
        (Function.update v .synchWriteAvail (incr (v .synchWriteAvail)))
        { d with writeInts := d.writeInts - 1, putBusy := false }
  | arrive {ch : Byte} {rest : List Byte} (h : d.incoming = EOF) (hk : d.keyboard = ch :: rest) :
      Fires v d [.V none .synchReadAvail]
        (Function.update v .synchReadAvail (incr (v .synchReadAvail)))
        { d with incoming := ch, keyboard := rest }

/-- A thread moves, or the console fires. -/
inductive Does (a : Atomic) (es : List (Event ConsoleSem ConsoleEvent)) (b : Atomic) : Prop
  | move (t : Tid) (k : ConsolePc) (ht : t < a.nextTid)
      (hm : Move t a.value a.data (a.pc t) es k b.value b.data)
      (hpc : b.pc = Function.update a.pc t k)
  | fire (hf : Fires a.value a.data es b.value b.data) (hpc : b.pc = a.pc)

variable {a b : Atomic} {es : List (Event ConsoleSem ConsoleEvent)} {input : List Byte}

theorem move_writeLoop {t : Tid} {v : ConsoleSem → Int} {d d' : Console} {w : ConsoleWrite}
    {loop : ℕ} {k : ConsolePc} {evs : List ConsoleEvent} (h : writeLoop w loop d = (k, d', evs)) :
    Move t v d (.writeLoop w loop) (evs.map (.act t)) k v d' := by
  unfold writeLoop Console.putChar at h
  by_cases hl : (loop : Int) < w.numBytes
  · cases hb : d.putBusy <;> simp only [hl, hb, dif_pos] at h <;> cases h
    · exact .put hl hb
    · exact .assertFails hb
  · rw [dif_neg hl] at h
    cases h
    exact .endWrite hl

theorem move_readLoop {t : Tid} {v : ConsoleSem → Int} {d : Console} (r : ConsoleRead) :
    Move t v d (.readLoop r) [] (readLoop r) v d := by
  unfold readLoop
  split
  · rename_i h
    exact .moreRead h.1 h.2
  · exact .endRead

theorem move_readChar {t : Tid} {v : ConsoleSem → Int} {d d' : Console} {r : ConsoleRead}
    {k : ConsolePc} {evs : List ConsoleEvent} (h : readChar r d = (k, d', evs)) :
    Move t v d (.readChar r) (evs.map (.act t)) k v d' := by
  unfold readChar Console.getChar at h
  by_cases he : d.incoming = EOF
  · simp only [he, if_true] at h
    cases h
    have hd : { d with incoming := EOF } = d := by rw [← he]
    rw [hd]
    exact .getNone he
  · simp only [he, if_false] at h
    cases h
    exact .get he

theorem fires_interrupt {i : ConsoleInt} {d : Console} {s : Option ConsoleSem}
    (h : Console.interrupt i a.data = some (d, s)) :
    (s = none ∧ d = a.data) ∨
      ∃ s', s = some s' ∧
        Fires a.value a.data [.V none s'] (Function.update a.value s' (incr (a.value s'))) d := by
  cases i with
  | writeDone =>
    simp only [Console.interrupt, Console.writeDone] at h
    split at h <;> cases h
    exact .inr ⟨_, rfl, .writeDone ‹_›⟩
  | readPoll polled =>
    simp only [Console.interrupt, Console.checkCharAvail] at h
    split at h
    · cases h
      exact .inl ⟨rfl, rfl⟩
    · rename_i hp
      split at h <;> cases h
      rename_i hk
      exact .inr ⟨_, rfl, .arrive (by simp_all) hk⟩

theorem does_step (hs : Step (program input) a es b) (hf : Fresh (program input) a) :
    Does a es b := by
  cases hs with
  | @P t s k ht hc hv =>
    refine .move t k ht ?_ rfl
    cases hpc : a.pc t <;> simp only [program, code, hpc] at hc <;> cases hc
    · exact .lockWrite hv
    · exact .woken hv
    · exact .lockRead hv
    · exact .ready hv
  | @V t s k ht hc =>
    refine .move t k ht ?_ rfl
    cases hpc : a.pc t <;> simp only [program, code, hpc] at hc <;> cases hc
    · exact .unlockWrite
    · exact .unlockRead
  | handler hd => cases hd
  | @yield t k ht hc =>
    refine .move t k ht ?_ rfl
    cases hpc : a.pc t <;> simp only [program, code, hpc, reduceCtorEq, or_self] at hc
    all_goals
      obtain rfl : ConsolePc.user = k := by simpa using hc
      exact .roam rfl rfl
  | @fork t child k setup ht hc =>
    cases hpc : a.pc t <;> simp only [program, code, hpc] at hc <;> cases hc
    -- the new thread is where it starts already
    have hn : Function.update a.pc a.nextTid .user = a.pc := by
      rw [Function.update_eq_self_iff]
      exact (hf a.nextTid le_rfl).symm
    refine .move t .user ht ?_ (by simp [hn])
    rw [hpc]
    exact .roam rfl rfl
  | @act t f c k d evs ht hc hd =>
    refine .move t k ht ?_ rfl
    cases hpc : a.pc t <;> simp only [program, code, hpc] at hc <;> cases hc
    · cases c <;> cases hd
      · exact .callWrite _
      · exact .callRead _ _
      all_goals exact .roam rfl rfl
    · exact move_writeLoop (Option.some.inj hd)
    · cases hd
      exact .returnWrite
    · cases hd
      exact move_readLoop _
    · exact move_readChar (Option.some.inj hd)
    · cases hd
      exact .returnRead
  | hook hd => cases hd <;> exact .fire .nothing rfl

/-- Every step among the devices is a move or a firing. -/
theorem does_deviceStep (hs : DeviceStep (program input) Console.interrupt a es b)
    (hf : Fresh (program input) a) : Does a es b := by
  cases hs with
  | thread hs => exact does_step hs hf
  | signal h =>
    rcases fires_interrupt h with ⟨he, -⟩ | ⟨s', he, hfire⟩
    · cases he
    · cases he
      exact .fire hfire rfl
  | quiet h =>
    rcases fires_interrupt h with ⟨-, he⟩ | ⟨s', he, -⟩
    · rw [he]
      exact .fire .nothing rfl
    · cases he

/-! ## The two line locks -/

/-- Between `WLineBlock->P()` and `WLineBlock->V()`. -/
def writing : ConsolePc → Bool
  | .writeLoop _ _ | .writeWait _ _ | .writeUnlock _ | .aborted => true
  | _ => false

/-- Between `RLineBlock->P()` and `RLineBlock->V()`. -/
def reading : ConsolePc → Bool
  | .readLoop _ | .readWait _ | .readChar _ | .readUnlock _ => true
  | _ => false

theorem writing_writeLoop (w : ConsoleWrite) (loop : ℕ) (d : Console) :
    writing (writeLoop w loop d).1 = true ∧ reading (writeLoop w loop d).1 = false := by
  unfold writeLoop
  split
  · split <;> exact ⟨rfl, rfl⟩
  · exact ⟨rfl, rfl⟩

theorem reading_readLoop (r : ConsoleRead) :
    writing (readLoop r) = false ∧ reading (readLoop r) = true := by
  unfold readLoop
  split <;> exact ⟨rfl, rfl⟩

theorem reading_readChar (r : ConsoleRead) (d : Console) :
    writing (readChar r d).1 = false ∧ reading (readChar r d).1 = true := by
  simp only [readChar]
  split <;> exact ⟨rfl, rfl⟩

/-- Local actions cross neither border. -/
theorem act_border {p : ConsolePc} {f : ConsoleChoice → Console →
      Option (ConsolePc × Console × List ConsoleEvent)} (hc : code p = .act f)
    {c : ConsoleChoice} {d d' : Console} {k : ConsolePc} {evs : List ConsoleEvent}
    (hf : f c d = some (k, d', evs)) : writing k = writing p ∧ reading k = reading p := by
  cases p <;> simp only [code] at hc <;> cases hc
  · cases c <;> cases hf <;> exact ⟨rfl, rfl⟩
  · rename_i w loop
    obtain rfl : (writeLoop w loop d).1 = k := by rw [Option.some.inj hf]
    exact writing_writeLoop w loop d
  · cases hf
    exact ⟨rfl, rfl⟩
  · cases hf
    exact reading_readLoop _
  · rename_i r
    obtain rfl : (readChar r d).1 = k := by rw [Option.some.inj hf]
    exact reading_readChar r d
  · cases hf
    exact ⟨rfl, rfl⟩

theorem lock_WLineBlock (input : List Byte) : (program input).Lock .WLineBlock writing where
  value := rfl
  start := rfl
  device := rfl
  code t p := by
    cases hc : code p with
    | act f =>
      simp only [program, hc, Instr.Brackets]
      exact fun c d k d' evs hf => (act_border hc hf).1
    | _ =>
      cases p <;> simp only [code] at hc <;> cases hc <;>
        simp [program, code, Instr.Brackets, writing]

theorem lock_RLineBlock (input : List Byte) : (program input).Lock .RLineBlock reading where
  value := rfl
  start := rfl
  device := rfl
  code t p := by
    cases hc : code p with
    | act f =>
      simp only [program, hc, Instr.Brackets]
      exact fun c d k d' evs hf => (act_border hc hf).2
    | _ =>
      cases p <;> simp only [code] at hc <;> cases hc <;>
        simp [program, code, Instr.Brackets, reading]

/-- No handler signals a line lock. -/
theorem interrupt_signals {i : ConsoleInt} {d d' : Console} {s : ConsoleSem}
    (h : Console.interrupt i d = some (d', some s)) : s ≠ .WLineBlock ∧ s ≠ .RLineBlock := by
  cases i with
  | writeDone =>
    simp only [Console.interrupt, Console.writeDone] at h
    split at h <;> cases h
    exact ⟨nofun, nofun⟩
  | readPoll polled =>
    simp only [Console.interrupt, Console.checkCharAvail] at h
    split at h
    · cases h
    · split at h <;> cases h
      exact ⟨nofun, nofun⟩

variable {tr : List (Event ConsoleSem ConsoleEvent)}

theorem writing_exclusive (h : (deviceAtomic (program input) Console.interrupt).Run tr a) :
    Exclusive .WLineBlock writing tr a :=
  exclusive_deviceRun (lock_WLineBlock input) (fun _ _ _ hi => (interrupt_signals hi).1 rfl) h

theorem reading_exclusive (h : (deviceAtomic (program input) Console.interrupt).Run tr a) :
    Exclusive .RLineBlock reading tr a :=
  exclusive_deviceRun (lock_RLineBlock input) (fun _ _ _ hi => (interrupt_signals hi).2 rfl) h

/-- A thread inside a section that starts outside has been forked. -/
theorem holds_of_inside {inside : ConsolePc → Bool} (hf : Fresh (program input) a)
    (h0 : inside .user = false) {t : Tid} (ht : inside (a.pc t) = true) : Holds inside a t := by
  refine ⟨?_, ht⟩
  by_contra hn
  have hpc : a.pc t = .user := hf t (not_lt.mp hn)
  simp [hpc, h0] at ht

theorem writing_unique (h : (deviceAtomic (program input) Console.interrupt).Run tr a) (t u : Tid)
    (ht : writing (a.pc t) = true) (hu : writing (a.pc u) = true) : t = u :=
  (writing_exclusive h).unique t u (holds_of_inside (fresh_deviceRun h) rfl ht)
    (holds_of_inside (fresh_deviceRun h) rfl hu)

theorem reading_unique (h : (deviceAtomic (program input) Console.interrupt).Run tr a) (t u : Tid)
    (ht : reading (a.pc t) = true) (hu : reading (a.pc u) = true) : t = u :=
  (reading_exclusive h).unique t u (holds_of_inside (fresh_deviceRun h) rfl ht)
    (holds_of_inside (fresh_deviceRun h) rfl hu)

end SynchConsole

end Nachos
