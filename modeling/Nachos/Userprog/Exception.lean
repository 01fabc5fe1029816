import Nachos.Lib.Bytes
import Nachos.Lib.Command
import Nachos.Machine.Machine

/-!
# System calls

`exception.cc`: the handlers of the system calls, and `ExceptionHandler`. A handler runs on
the registers of its thread; a call of it that blocks comes back with the same registers,
since they are saved and restored when another thread runs. What the rest of the kernel
does is given by `Services`.
-/
namespace Nachos

open Bytes (Byte)

/-- What the handlers call, on the rest `S` of the state. A service that never returns, in
particular one that stops the machine, has no result. Strings come without their
terminating zero. -/
structure Services (S : Type) where
  /-- `Machine::ReadMem` and `WriteMem` for one byte. -/
  readMem : BitVec 32 → Command S (BitVec 32)
  writeMem : BitVec 32 → BitVec 32 → Command S Unit
  /-- `SynchConsole::Read`: the result, and the bytes stored. -/
  consoleRead : BitVec 32 → Command S (BitVec 32 × List Byte)
  consoleWrite : List Byte → Command S Unit
  /-- `fileSystem->Create(name, 0)`. -/
  create : List Byte → Command S Bool
  findFreeSlot : Command S (BitVec 32)
  /-- `fileSystem->openf[slot] = fileSystem->Open(name, type)`: whether it is not null. -/
  openInto : BitVec 32 → List Byte → BitVec 32 → Command S Bool
  /-- The type of `openf[id]`, unless that is null. -/
  openf : BitVec 32 → Command S (Option (BitVec 32))
  /-- `delete openf[id]`. -/
  close : BitVec 32 → Command S Unit
  getCurrentPos : BitVec 32 → Command S (BitVec 32)
  /-- `openf[id]->Read(into, numBytes)`: the result, and the bytes stored. -/
  read : BitVec 32 → BitVec 32 → Command S (BitVec 32 × List Byte)
  /-- `openf[id]->Write(from, numBytes)`. -/
  write : BitVec 32 → List Byte → BitVec 32 → Command S (BitVec 32)
  /-- `fileSystem->Open(name)` and `delete` of the result, if there is one. -/
  canOpen : List Byte → Command S Bool
  execUpdate : List Byte → Command S (BitVec 32)
  joinUpdate : BitVec 32 → Command S (BitVec 32)
  exitUpdate : BitVec 32 → Command S (BitVec 32)
  semCreate : List Byte → BitVec 32 → Command S (BitVec 32)
  semWait : List Byte → Command S (BitVec 32)
  semSignal : List Byte → Command S (BitVec 32)

abbrev Handler (S : Type) := Command (Registers × S)

namespace Handler

variable {S : Type}

def readRegister (num : Fin NumTotalRegs) : Handler S (BitVec 32) := fun s => some (s.1 num, s)

def writeRegister (num : Fin NumTotalRegs) (value : BitVec 32) : Handler S Unit := fun s =>
  some ((), s.1.writeRegister num value, s.2)

/-- The result becomes `-1` on an error, and the handler goes on. -/
def failIf (error : Prop) [Decidable error] : Handler S Unit :=
  if error then writeRegister 2 (-1) else pure ()

theorem readRegister_apply (num : Fin NumTotalRegs) (s : Registers × S) :
    readRegister num s = some (s.1 num, s) := rfl

theorem failIf_apply (error : Prop) [Decidable error] (s : Registers × S) :
    failIf error s = some ((), if error then s.1.writeRegister 2 (-1) else s.1, s.2) := by
  unfold failIf
  split <;> rfl

theorem failIf_of_not {error : Prop} [Decidable error] (h : ¬error) (s : Registers × S) :
    failIf error s = some ((), s) := by
  rw [failIf, if_neg h]
  rfl

def increaseProgramCounter : Handler S Unit := fun s => some ((), s.1.increaseProgramCounter, s.2)

end Handler

namespace Services

open Command Handler

variable {S : Type} (k : Services S)

/-- The loop of `User2System` from index `i` on, with `n` iterations left. -/
def copyIn (virtAddr : BitVec 32) (i : ℕ) : ℕ → Handler S (List Byte)
  | 0 => pure []
  | n + 1 => do
    let oneChar ← onSecond (k.readMem (virtAddr + BitVec.ofNat 32 i))
    if oneChar = 0 then pure [0]
    else do
      let rest ← copyIn virtAddr (i + 1) n
      pure (oneChar.truncate 8 :: rest)

/-- `User2System`: the buffer, of which the rest is zero. -/
def user2System (virtAddr limit : BitVec 32) : Handler S (List Byte) :=
  if (limit + 1).toInt < 0 then stop
  else do
    let kernelBuf ← k.copyIn virtAddr 0 limit.toInt.toNat
    pure (kernelBuf ++ List.replicate ((limit + 1).toNat - kernelBuf.length) 0)

/-- The loop of `System2User` from index `i` on, with at most `n` more iterations. -/
def copyOut (virtAddr : BitVec 32) (buffer : List Byte) (i : ℕ) : ℕ → Handler S (BitVec 32)
  | 0 => pure (BitVec.ofNat 32 i)
  | n + 1 => do
    let oneChar := (buffer.getD i 0).signExtend 32
    onSecond (k.writeMem (virtAddr + BitVec.ofNat 32 i) oneChar)
    if oneChar = 0 then pure (BitVec.ofNat 32 (i + 1))
    else copyOut virtAddr buffer (i + 1) n

/-- `System2User`. -/
def system2User (virtAddr len : BitVec 32) (buffer : List Byte) : Handler S (BitVec 32) :=
  if len.toInt < 0 then pure (-1)
  else k.copyOut virtAddr buffer 0 len.toNat

/-- A buffer as a C string. -/
def cString (buffer : List Byte) : List Byte := buffer.takeWhile fun b => b ≠ 0

/-- `gSynchConsole->Read(&c, 1)`: a line that ends leaves `c` zero. -/
def readOne : Handler S Byte := do
  let r ← onSecond (k.consoleRead 1)
  pure (r.2.getD 0 0)

/-- The loop over blanks in `Exception_ReadInt`, for up to `fuel` of them. -/
def skipBlanks : ℕ → Handler S Byte
  | 0 => stop
  | fuel + 1 => do
    let c ← k.readOne
    if c = 32 then skipBlanks fuel else pure c

def isDigit (c : Byte) : Bool := 48 ≤ c && c ≤ 57

/-- The loop over digits: `c` is the character read last, and `num_string` has room for `n`
more. -/
def readDigits : ℕ → Byte → Handler S (List Byte)
  | 0, _ => pure []
  | n + 1, c =>
    if isDigit c then do
      let next ← k.readOne
      let rest ← readDigits n next
      pure (c :: rest)
    else pure []

def exceptionReadInt (fuel : ℕ) : Handler S Unit := do
  let sign ← k.skipBlanks fuel
  let first := if isDigit sign then [sign] else []
  let c ← k.readOne
  let rest ← k.readDigits (11 - first.length) c
  let ret := (first ++ rest).foldl (fun ret c => ret * 10 + ((c.toNat : Int) - 48)) 0
  let ret := if 2147483647 < ret then 0 else ret
  writeRegister 2 (BitVec.ofInt 32 (if sign = 45 then -ret else ret))

/-- The decimal digits of `n`, the last one first, as the division of C gives them. -/
def digits : ℕ → BitVec 32 → List (BitVec 32)
  | 0, _ => []
  | fuel + 1, n => n.srem 10 :: if n.sdiv 10 = 0 then [] else digits fuel (n.sdiv 10)

def exceptionPrintInt : Handler S Unit := do
  let n ← readRegister 4
  let sign : List Byte := if n.toInt < 0 then [45] else []
  let tmp := digits 11 (if n.toInt < 0 then -n else n)
  onSecond (k.consoleWrite (sign ++ tmp.reverse.map fun d => 48 + d.truncate 8))
  writeRegister 2 0

def exceptionReadChar : Handler S Unit := do
  let ch ← k.readOne
  writeRegister 2 (ch.signExtend 32)

def exceptionPrintChar : Handler S Unit := do
  let ch ← readRegister 4
  onSecond (k.consoleWrite [ch.truncate 8])
  writeRegister 2 0

/-- `buffer` is never set, so the line goes wherever it points; it is read back from there. -/
def exceptionReadString : Handler S Unit := do
  let addr ← readRegister 4
  let maxLength ← readRegister 5
  let r ← onSecond (k.consoleRead maxLength)
  let _ ← k.system2User addr maxLength r.2
  pure ()

def exceptionPrintString : Handler S Unit := do
  let addr ← readRegister 4
  let buffer ← k.user2System addr 255
  onSecond (k.consoleWrite (cString buffer))

/-- An empty name and a failure are noted in register `2`, and then overwritten. -/
def exceptionCreateFile : Handler S Unit := do
  let addr ← readRegister 4
  let fileName ← k.user2System addr 33
  failIf (cString fileName = [])
  let created ← onSecond (k.create (cString fileName))
  failIf (created = false)
  writeRegister 2 0

def exceptionOpen : Handler S Unit := do
  let virtAddr ← readRegister 4
  let type ← readRegister 5
  let filename ← k.user2System virtAddr 32
  let freeSlot ← onSecond k.findFreeSlot
  if freeSlot ≠ -1 then
    if type = 0 ∨ type = 1 then do
      let opened ← onSecond (k.openInto freeSlot (cString filename) type)
      if opened then writeRegister 2 freeSlot else pure ()
    else if type = 2 then writeRegister 2 0
    else writeRegister 2 1
  else writeRegister 2 (-1)

/-- The test that an index is in the table. -/
def inTable (id : BitVec 32) : Prop := 0 ≤ id.toInt ∧ id.toInt ≤ 14

instance (id : BitVec 32) : Decidable (inTable id) := inferInstanceAs (Decidable (_ ∧ _))

def exceptionClose : Handler S Unit := do
  let fileId ← readRegister 4
  if inTable fileId then do
    let file ← onSecond (k.openf fileId)
    if file.isSome then do
      writeRegister 2 0
      onSecond (k.close fileId)
    else writeRegister 2 (-1)
  else writeRegister 2 (-1)

/-- `openf[id]->type`. -/
def fileType (id : BitVec 32) : Handler S (BitVec 32) := do
  let file ← onSecond (k.openf id)
  if file.isSome then pure (file.getD 0) else stop

/-- `Exception_Read` on the console. It clears `temp` before it stores anything. -/
def readConsole (addr charCount : BitVec 32) : Handler S Unit := do
  let r ← onSecond (k.consoleRead charCount)
  let _ ← k.system2User addr r.1 r.2
  writeRegister 2 r.1

/-- `Exception_Read` on a file at `firstPositionInFile`. -/
def readFile (addr charCount id firstPositionInFile : BitVec 32) (temp : List Byte) :
    Handler S Unit := do
  let r ← onSecond (k.read id charCount)
  if 0 < r.1.toInt then do
    let lastPositionInFile ← onSecond (k.getCurrentPos id)
    let count := lastPositionInFile - firstPositionInFile
    let _ ← k.system2User addr count (r.2 ++ temp.drop r.2.length)
    writeRegister 2 count
  else writeRegister 2 (-2)

def exceptionRead : Handler S Unit := do
  let addr ← readRegister 4
  let charCount ← readRegister 5
  let id ← readRegister 6
  if ¬inTable id then writeRegister 2 (-1)
  else do
    let file ← onSecond (k.openf id)
    if file = none then writeRegister 2 (-1)
    else do
      let type ← k.fileType id
      if type = 3 then writeRegister 2 (-1)
      else do
        let firstPositionInFile ← onSecond (k.getCurrentPos id)
        let temp ← k.user2System addr charCount
        if type = 2 then k.readConsole addr charCount
        else k.readFile addr charCount id firstPositionInFile temp

/-- The loop that writes to the console, from index `i` on: the index at which it ends.
`temp` ends with a zero byte. -/
def writeLine (temp : List Byte) (i : ℕ) : ℕ → Handler S ℕ
  | 0 => pure i
  | n + 1 =>
    if temp.getD i 0 ≠ 0 ∧ temp.getD i 0 ≠ 10 then do
      onSecond (k.consoleWrite [temp.getD i 0])
      writeLine temp (i + 1) n
    else pure i

/-- `Exception_Write` to the console: a line end is always added. -/
def writeConsole (temp : List Byte) : Handler S Unit := do
  let i ← k.writeLine temp 0 temp.length
  onSecond (k.consoleWrite [10])
  writeRegister 2 (BitVec.ofNat 32 i - 1)

/-- `Exception_Write` to a file at `oldPos`. -/
def writeFile (charcount id oldPos : BitVec 32) (temp : List Byte) : Handler S Unit := do
  let written ← onSecond (k.write id temp charcount)
  if 0 < written.toInt then do
    let newPos ← onSecond (k.getCurrentPos id)
    writeRegister 2 (newPos - oldPos)
  else pure ()

/-- `Exception_Write` after its checks. -/
def writeOpen (virtAddr charcount id type : BitVec 32) : Handler S Unit := do
  let oldPos ← onSecond (k.getCurrentPos id)
  let temp ← k.user2System virtAddr charcount
  if type = 0 then k.writeFile charcount id oldPos temp
  else if type = 3 then k.writeConsole temp
  else pure ()

/-- A bad descriptor is noted in register `2`, and then used. -/
def exceptionWrite : Handler S Unit := do
  let virtAddr ← readRegister 4
  let charcount ← readRegister 5
  let id ← readRegister 6
  failIf ¬inTable id
  let file ← onSecond (k.openf id)
  failIf (file = none)
  let type ← k.fileType id
  failIf (type = 1 ∨ type = 2)
  k.writeOpen virtAddr charcount id type

def exceptionExec : Handler S Unit := do
  let virtAddr ← readRegister 4
  let name ← k.user2System virtAddr 33
  let opened ← onSecond (k.canOpen (cString name))
  if opened then do
    let id ← onSecond (k.execUpdate (cString name))
    writeRegister 2 id
  else writeRegister 2 (-1)

def exceptionJoin : Handler S Unit := do
  let id ← readRegister 4
  let res ← onSecond (k.joinUpdate id)
  writeRegister 2 res

def exceptionExit : Handler S Unit := do
  let exitstatus ← readRegister 4
  let res ← onSecond (k.exitUpdate exitstatus)
  writeRegister 2 res

def exceptionCreateSemaphore : Handler S Unit := do
  let addr ← readRegister 4
  let semval ← readRegister 5
  let name ← k.user2System addr 255
  let res ← onSecond (k.semCreate (cString name) semval)
  writeRegister 2 (if res = -1 then -1 else 0)

def exceptionWait : Handler S Unit := do
  let addr ← readRegister 4
  let name ← k.user2System addr 255
  let result ← onSecond (k.semWait (cString name))
  writeRegister 2 result

def exceptionSignal : Handler S Unit := do
  let addr ← readRegister 4
  let name ← k.user2System addr 255
  let result ← onSecond (k.semSignal (cString name))
  writeRegister 2 result

def exceptionSum : Handler S Unit := do
  let a ← readRegister 4
  let b ← readRegister 5
  writeRegister 2 (a + b)

/-- The handler of a system call, `none` for the `default` branch. `Halt` does not return. -/
def handlerOf (fuel : ℕ) : ℕ → Option (Handler S Unit)
  | 0 => some stop
  | 1 => some k.exceptionExit
  | 2 => some k.exceptionExec
  | 3 => some k.exceptionJoin
  | 4 => some k.exceptionCreateFile
  | 5 => some k.exceptionOpen
  | 6 => some k.exceptionRead
  | 7 => some k.exceptionWrite
  | 8 => some k.exceptionClose
  | 11 => some (k.exceptionReadInt fuel)
  | 12 => some k.exceptionPrintInt
  | 13 => some k.exceptionReadChar
  | 14 => some k.exceptionPrintChar
  | 15 => some k.exceptionReadString
  | 16 => some k.exceptionPrintString
  | 18 => some k.exceptionCreateSemaphore
  | 19 => some k.exceptionWait
  | 20 => some k.exceptionSignal
  | 28 => some exceptionSum
  | _ => none

/-- The codes that have a handler. -/
def implemented : List ℕ :=
  [0, 1, 2, 3, 4, 5, 6, 7, 8, 11, 12, 13, 14, 15, 16, 18, 19, 20, 28]

/-- `ExceptionHandler`. -/
def exceptionHandler (fuel : ℕ) : ExceptionType → Handler S Unit
  | .NoException => pure ()
  | .SyscallException => do
    let type ← readRegister 2
    match k.handlerOf fuel type.toNat with
    | some handler => do
      handler
      increaseProgramCounter
    | none => pure ()
  | _ => stop

variable {k} in
/-- A system call whose handler comes back. -/
theorem exceptionHandler_of_some {fuel : ℕ} {handler : Handler S Unit} {r r' : Registers} {s s' : S}
    (hh : k.handlerOf fuel (r 2).toNat = some handler)
    (hrun : handler (r, s) = some ((), r', s')) :
    k.exceptionHandler fuel .SyscallException (r, s) = some ((), r'.increaseProgramCounter, s') := by
  have hread : readRegister 2 (r, s) = some (r 2, r, s) := rfl
  rw [exceptionHandler, bind_of_some hread, hh]
  exact bind_of_some hrun

variable {k} in
theorem exceptionHandler_of_none {fuel : ℕ} {handler : Handler S Unit} {r : Registers} {s : S}
    (hh : k.handlerOf fuel (r 2).toNat = some handler) (hrun : handler (r, s) = none) :
    k.exceptionHandler fuel .SyscallException (r, s) = none := by
  have hread : readRegister 2 (r, s) = some (r 2, r, s) := rfl
  rw [exceptionHandler, bind_of_some hread, hh]
  exact bind_of_none hrun

variable {k} in
/-- A system call that comes back. -/
theorem handler_of_exceptionHandler {fuel : ℕ} {handler : Handler S Unit} {r r' : Registers}
    {s s' : S} (hh : k.handlerOf fuel (r 2).toNat = some handler)
    (hrun : k.exceptionHandler fuel .SyscallException (r, s) = some ((), r', s')) :
    ∃ r₁, handler (r, s) = some ((), r₁, s') ∧ r' = r₁.increaseProgramCounter := by
  have hread : readRegister 2 (r, s) = some (r 2, r, s) := rfl
  rw [exceptionHandler, bind_of_some hread, hh] at hrun
  obtain ⟨_, s₁, hhandler, hinc⟩ := bind_eq_some.mp hrun
  cases hinc
  exact ⟨s₁.1, hhandler, rfl⟩

/-! ## The registers -/

/-- No register but the one for the result changes. -/
def OnlyResult (s s' : Registers × S) : Prop := ∀ i, i ≠ 2 → s'.1 i = s.1 i

instance : Std.Refl (OnlyResult (S := S)) := ⟨fun _ _ _ => rfl⟩

instance : IsTrans (Registers × S) OnlyResult :=
  ⟨fun _ _ _ h₁ h₂ i hi => (h₂ i hi).trans (h₁ i hi)⟩

instance (num : Fin NumTotalRegs) : Keeps OnlyResult (readRegister num : Handler S _) :=
  ⟨by rintro s _ _ ⟨rfl, rfl⟩ i _; rfl⟩

instance (value : BitVec 32) : Keeps OnlyResult (writeRegister 2 value : Handler S _) :=
  ⟨by rintro s _ _ ⟨rfl, rfl⟩ i hi; exact Function.update_of_ne hi _ _⟩

instance (error : Prop) [Decidable error] : Keeps OnlyResult (failIf error : Handler S _) := by
  unfold failIf
  infer_instance

instance {α : Type} (c : Command S α) : Keeps OnlyResult (onSecond c : Handler S α) := ⟨by
  intro s a s' h i _
  have := Keeps.keeps (R := fun s s' : Registers × S => s'.1 = s.1) s a s' h
  rw [this]⟩

instance (virtAddr : BitVec 32) (i n : ℕ) : Keeps OnlyResult (k.copyIn virtAddr i n) := by
  induction n generalizing i with
  | zero => unfold copyIn; infer_instance
  | succ n ih => unfold copyIn; infer_instance

instance (virtAddr limit : BitVec 32) : Keeps OnlyResult (k.user2System virtAddr limit) := by
  unfold user2System
  infer_instance

instance (virtAddr : BitVec 32) (buffer : List Byte) (i n : ℕ) :
    Keeps OnlyResult (k.copyOut virtAddr buffer i n) := by
  induction n generalizing i with
  | zero => unfold copyOut; infer_instance
  | succ n ih => unfold copyOut; infer_instance

instance (virtAddr len : BitVec 32) (buffer : List Byte) :
    Keeps OnlyResult (k.system2User virtAddr len buffer) := by
  unfold system2User
  infer_instance

instance : Keeps OnlyResult k.readOne := by
  unfold readOne
  infer_instance

instance (fuel : ℕ) : Keeps OnlyResult (k.skipBlanks fuel) := by
  induction fuel with
  | zero => unfold skipBlanks; infer_instance
  | succ fuel ih => unfold skipBlanks; infer_instance

instance (n : ℕ) (c : Byte) : Keeps OnlyResult (k.readDigits n c) := by
  induction n generalizing c with
  | zero => unfold readDigits; infer_instance
  | succ n ih => unfold readDigits; infer_instance

instance (id : BitVec 32) : Keeps OnlyResult (k.fileType id) := by
  unfold fileType
  infer_instance

instance (temp : List Byte) (i n : ℕ) : Keeps OnlyResult (k.writeLine temp i n) := by
  induction n generalizing i with
  | zero => unfold writeLine; infer_instance
  | succ n ih => unfold writeLine; infer_instance

instance (addr charCount : BitVec 32) : Keeps OnlyResult (k.readConsole addr charCount) := by
  unfold readConsole
  infer_instance

instance (addr charCount id position : BitVec 32) (temp : List Byte) :
    Keeps OnlyResult (k.readFile addr charCount id position temp) := by
  unfold readFile
  infer_instance

instance (temp : List Byte) : Keeps OnlyResult (k.writeConsole temp) := by
  unfold writeConsole
  infer_instance

instance (charcount id oldPos : BitVec 32) (temp : List Byte) :
    Keeps OnlyResult (k.writeFile charcount id oldPos temp) := by
  unfold writeFile
  infer_instance

instance (virtAddr charcount id type : BitVec 32) :
    Keeps OnlyResult (k.writeOpen virtAddr charcount id type) := by
  unfold writeOpen
  infer_instance

/-- Every handler leaves the program counter to `ExceptionHandler`. -/
theorem keeps_handlerOf {fuel n : ℕ} {handler : Handler S Unit}
    (h : k.handlerOf fuel n = some handler) : Keeps OnlyResult handler := by
  unfold handlerOf at h
  split at h <;> cases h <;> first
  | infer_instance
  | simp only [exceptionExit, exceptionExec, exceptionJoin, exceptionCreateFile, exceptionOpen,
      exceptionRead, exceptionWrite, exceptionClose, exceptionReadInt, exceptionPrintInt,
      exceptionReadChar, exceptionPrintChar, exceptionReadString, exceptionPrintString,
      exceptionCreateSemaphore, exceptionWait, exceptionSignal, exceptionSum]
    infer_instance

/-- A kernel that never answers. -/
def silent : Services S where
  readMem _ := stop
  writeMem _ _ := stop
  consoleRead _ := stop
  consoleWrite _ := stop
  create _ := stop
  findFreeSlot := stop
  openInto _ _ _ := stop
  openf _ := stop
  close _ := stop
  getCurrentPos _ := stop
  read _ _ := stop
  write _ _ _ := stop
  canOpen _ := stop
  execUpdate _ := stop
  joinUpdate _ := stop
  exitUpdate _ := stop
  semCreate _ _ := stop
  semWait _ := stop
  semSignal _ := stop

theorem handlerOf_eq_none (fuel : ℕ) {n : ℕ} : k.handlerOf fuel n = none ↔ n ∉ implemented := by
  unfold handlerOf implemented
  split <;> simp_all

end Services

/-- The program goes on behind its system call, with nothing changed but the result. -/
structure AdvancesOnce (r r' : Registers) : Prop where
  pc : r' Registers.PCReg = r Registers.NextPCReg
  nextPC : r' Registers.NextPCReg = r Registers.NextPCReg + 4
  prevPC : r' Registers.PrevPCReg = r Registers.PCReg
  others : ∀ i, i ≠ 2 → i ≠ Registers.PCReg → i ≠ Registers.NextPCReg → i ≠ Registers.PrevPCReg →
    r' i = r i

theorem advancesOnce_increase {r r' : Registers} (h : ∀ i, i ≠ 2 → r' i = r i) :
    AdvancesOnce r r'.increaseProgramCounter := by
  have hpn : Registers.PCReg ≠ Registers.NextPCReg := by decide
  have hpp : Registers.PrevPCReg ≠ Registers.PCReg := by decide
  have hvn : Registers.PrevPCReg ≠ Registers.NextPCReg := by decide
  have hpc := h Registers.PCReg (by decide)
  have hnext := h Registers.NextPCReg (by decide)
  constructor
  · simp [Registers.increaseProgramCounter, Registers.writeRegister, hpn, hnext]
  · simp [Registers.increaseProgramCounter, Registers.writeRegister, hnext]
  · simp [Registers.increaseProgramCounter, Registers.writeRegister, hpp, hvn, hpc]
  · intro i h2 hpc hnext hprev
    simp [Registers.increaseProgramCounter, Registers.writeRegister, hpc, hnext, hprev, h i h2]

/-- Whatever the rest of the kernel does, a system call that returns has moved the program on
once, exactly if its code is one of those with a handler. -/
theorem syscall_advances_iff (r : Registers) :
    (∀ (S : Type) (k : Services S) (fuel : ℕ) (s : S) (r' : Registers) (s' : S),
      k.exceptionHandler fuel .SyscallException (r, s) = some ((), r', s') → AdvancesOnce r r') ↔
    (r 2).toNat ∈ Services.implemented := by
  constructor
  · intro h
    by_contra hnot
    have hrun : (Services.silent : Services Unit).exceptionHandler 0 .SyscallException (r, ()) =
        some ((), r, ()) := by
      have hnone := (Services.handlerOf_eq_none (Services.silent : Services Unit) 0).mpr hnot
      have hread : Handler.readRegister 2 (r, ()) = some (r 2, r, ()) := rfl
      rw [Services.exceptionHandler, Command.bind_of_some hread, hnone]
      rfl
    have hnext := (h Unit Services.silent 0 () r () hrun).nextPC
    -- the next program counter would be its own successor
    simp at hnext
  · intro hin S k fuel s r' s' hrun
    obtain ⟨handler, hh⟩ := Option.ne_none_iff_exists'.mp fun hn =>
      (Services.handlerOf_eq_none k fuel).mp hn hin
    simp only [Services.exceptionHandler] at hrun
    obtain ⟨type, s₁, hread, hrun⟩ := Command.bind_eq_some.mp hrun
    cases hread
    simp only [hh] at hrun
    obtain ⟨_, ⟨r₁, s₁⟩, hhandler, hinc⟩ := Command.bind_eq_some.mp hrun
    cases hinc
    have := k.keeps_handlerOf hh
    exact advancesOnce_increase (Command.Keeps.keeps (R := Services.OnlyResult) _ _ _ hhandler)

/-- The registers of a program that calls `Yield`. -/
def yieldRegisters : Registers := Registers.writeRegister (fun _ => 0) 2 10

/-- `Yield` has no handler: it returns to the same system call. -/
theorem yield_not_advances :
    (Services.silent : Services Unit).exceptionHandler 0 .SyscallException (yieldRegisters, ()) =
      some ((), yieldRegisters, ()) ∧ ¬AdvancesOnce yieldRegisters yieldRegisters := by
  refine ⟨rfl, fun h => ?_⟩
  exact absurd h.nextPC (by decide)

end Nachos
