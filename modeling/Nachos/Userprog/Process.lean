import Nachos.Threads.Kernel
import Nachos.Userprog.AddrSpace
import Nachos.Userprog.BitMap

/-!
# Processes

The code a thread executes between two calls into the thread system: starting a program
(`progtest.cc`, `addrspace.cc`), running it, and the system calls `Exec`, `Join` and `Exit`
(`exception.cc`, `ptable.cc`, `pcb.cc`). The other system calls only matter here as
callers of `P` and `V` and for the registers they leave.

A control point is a place where the code is about to call `P`, `V` or `Fork`, or is about
to look at shared data again after such a call. Deleted objects keep their last contents.
-/
namespace Nachos

open Concurrent

/-- A `PCB` object, numbered in the order of allocation. The one of process `0` is `0`. -/
abbrev ObjectId := ℕ

/-- An `AddrSpace` object, numbered in the order of allocation. -/
abbrev SpaceId := ℕ

/-- The semaphores: of the process table, of address space construction, of each `PCB`,
and those of the console and of user programs. -/
inductive SemId
  | bmsem
  | addrLock
  | joinsem (o : ObjectId)
  | exitsem (o : ObjectId)
  | multex (o : ObjectId)
  | other (n : ℕ)
  deriving DecidableEq

/-- `class PCB` without its semaphores. -/
structure PCB where
  parentID : Int
  thread : Option Tid
  exitcode : Int
  numwait : Int
  name : String

/-- The global data, and the fields of the threads that user programs need. -/
structure Data where
  pcb : Int → Option ObjectId
  object : ObjectId → PCB
  nextObject : ObjectId
  processID : Tid → Int
  /-- `none` when the string behind the thread's name has been deallocated. -/
  threadName : Tid → Option String
  gPhysPageBitMap : BitMap
  addrSpace : SpaceId → AddrSpace
  nextSpace : SpaceId
  space : Tid → Option SpaceId
  userRegisters : Tid → Registers
  registers : Registers
  pageTable : PageTable
  pageTableSize : BitVec 32

/-- Inside the constructors of `AddrSpace`, from `addrLock->P()` on. -/
inductive AddrSpacePc
  | P (h : NoffHeader)
  | check (h : NoffHeader)
  | page (h : NoffHeader) (i : ℕ)
  | VFull
  | V (h : NoffHeader)
  | load (h : NoffHeader)
  | done

/-- Inside `PTable::ExecUpdate` and `PCB::Exec`. -/
inductive ExecPc
  | P (name : String)
  | check (name : String)
  | multexP (index : Int) (o : ObjectId) (name : String)
  | fork (index : Int) (o : ObjectId) (name : String)
  | multexV (index : Int) (o : ObjectId) (u : Tid)
  | V (id : Int) (u : Option Tid)
  | ret (id : Int) (u : Option Tid)

/-- Inside `PTable::JoinUpdate`. -/
inductive JoinPc
  | check
  | incP (p : ObjectId)
  | inc (p : ObjectId)
  | incV (p : ObjectId)
  | lookup
  | wait (o : ObjectId)
  | read
  | release (o : ObjectId) (e : Int)
  | ret (o : ObjectId) (e : Int)

/-- Inside `PTable::ExitUpdate` and what it calls. -/
inductive ExitPc
  | check
  | decP (p : ObjectId)
  | dec (p : ObjectId)
  | decV (p : ObjectId)
  | lookup
  | release (o : ObjectId)
  | lookupAgain
  | wait (o : ObjectId)
  | remove
  | finish

inductive Pc
  /-- `StartProcess` in the main thread, and `main` after it. -/
  | startProcess
  | mainReturn
  /-- `StartProcess_2(id)` in the thread of a new process. -/
  | startProcess2 (id : Int)
  | construct (a : SpaceId) (k : AddrSpacePc)
  /-- `Machine::Run`, before `OneInstruction` and after it. -/
  | user
  | tick
  | exec (k : ExecPc)
  | join (c : Int) (k : JoinPc)
  | exit (e : Int) (k : ExitPc)
  /-- Any other system call, and the semaphores it uses. -/
  | call
  | callP (n : ℕ)
  | callV (n : ℕ)
  /-- A system call returns `r` to the user program. -/
  | sysret (r : Int)
  /-- `Interrupt::Halt`, or an abort. -/
  | halted

/-- What a run reports. -/
inductive Ev
  /-- An instruction, a system call or `InitRegisters` has left these registers. -/
  | left (r : Registers)
  /-- The check that memory is sufficient succeeds, with `free` bits clear. -/
  | allocating (h : NoffHeader) (free : ℕ)
  | find (r : Int)
  | bzero (start length : Int)
  | readAt (start length : Int)
  /-- `delete space` in `Thread::FreeSpace`. -/
  | freed (a : SpaceId)
  /-- `JoinUpdate(c)` passes its validity check. -/
  | joinPassed (c : Int) (o : ObjectId)
  | exitCodeRead (c : Int) (o : ObjectId) (e : Int)
  | joinReturned (c : Int) (o : ObjectId) (e : Int)
  /-- `ExitUpdate(e)` of process `c` has set its exit code. -/
  | exitCodeSet (c : Int) (o : ObjectId) (e : Int)
  /-- `delete pcb[pid]`. -/
  | destroyed (o : ObjectId)
  deriving DecidableEq

/-- How one instruction of a user program ends. -/
inductive Instruction
  | ok (r : Registers)
  | exception
  | syscall

/-- What a system call other than `Exec`, `Join` and `Exit` does next. -/
inductive Call
  | P (n : ℕ)
  | V (n : ℕ)
  | return (r : Registers)
  | halt

/-- What the environment decides: files, user programs, uninitialised memory. -/
structure Choice where
  opened : Bool := true
  another : Bool := false
  header : NoffHeader := ⟨NOFFMAGIC, ⟨0, 0, 0⟩, ⟨0, 0, 0⟩, ⟨0, 0, 0⟩⟩
  name : String := ""
  sameName : Bool := false
  uninit : ℕ → BitVec 32 := fun _ => 0
  instruction : Instruction := .syscall
  call : Call := .halt

abbrev Code := Instr SemId Pc Data Ev Choice

def psize : ℕ := 10

/-- `PTable::GetFreeSlot`. -/
def Data.getFreeSlot (d : Data) : Int :=
  match (List.range psize).find? fun i : ℕ => (d.pcb (i : Int)).isNone with
  | some i => (i : Int)
  | none => -1

/-- `strcmp(name, currentThread->getName()) == 0`. The comparison with a string that has
been deallocated may come out either way. -/
def Data.isNamed (d : Data) (t : Tid) (name : String) (stale : Bool) : Bool :=
  match d.threadName t with
  | some n => decide (name = n)
  | none => stale

/-- Write to one `AddrSpace`. -/
def Data.setAddrSpace (d : Data) (a : SpaceId) (s : AddrSpace) : Data :=
  { d with addrSpace := Function.update d.addrSpace a s }

/-- Write to one `PCB`. -/
def Data.setObject (d : Data) (o : ObjectId) (f : PCB → PCB) : Data :=
  { d with object := Function.update d.object o (f (d.object o)) }

/-- `new AddrSpace(..)` up to `addrLock->P()`: the file may be missing, and the header must
have the magic number. -/
def newAddrSpace (c : Choice) (d : Data) : Pc × Data × List Ev :=
  let a := d.nextSpace
  let d' := { d.setAddrSpace a ⟨.wild (c.uninit 0), c.uninit 1, []⟩ with nextSpace := a + 1 }
  if !c.opened then (.construct a .done, d', [])
  else if c.header.noffMagic = NOFFMAGIC then (.construct a (.P c.header), d', [])
  else (.halted, d', [])

/-- The constructors of `AddrSpace` from there on, and the start of the program. -/
def addrSpaceCode (t : Tid) (a : SpaceId) : AddrSpacePc → Code
  | .P h => .P .addrLock (.construct a (.check h))
  | .check h => .act fun _ d =>
    let s := d.addrSpace a
    let free := d.gPhysPageBitMap.numClear
    if free < h.numPages.toNat then
      some (.construct a .VFull, d.setAddrSpace a { s with numPages := 0 }, [])
    else
      some (.construct a (.page h 0),
        d.setAddrSpace a { s with pageTable := .allocated a, numPages := h.numPages },
        [.allocating h free])
  | .page h i => .act fun _ d =>
    let s := d.addrSpace a
    if i < s.numPages.toNat then
      let r := d.gPhysPageBitMap.find
      let entry : TranslationEntry := ⟨i, r.1, true, false, false, false⟩
      some (.construct a (.page h (i + 1)),
        { d.setAddrSpace a { s with entries := s.entries ++ [entry] } with
          gPhysPageBitMap := r.2 },
        [.find r.1, .bzero (r.1 * PageSize) PageSize])
    else some (.construct a (.V h), d, [])
  | .VFull => .V .addrLock (.construct a .done)
  | .V h => .V .addrLock (.construct a (.load h))
  | .load h => .act fun _ d =>
    some (if h.Loads then .construct a .done else .halted, d,
      (h.reads (d.addrSpace a).entries).map fun r => .readAt r.1 r.2)
  | .done => .act fun _ d =>
    let s := d.addrSpace a
    let r := Registers.initRegisters s.numPages
    some (.user,
      { d with
        space := Function.update d.space t (some a)
        registers := r
        pageTable := s.pageTable
        pageTableSize := s.numPages },
      [.left r])

/-- One instruction of the user program. A system call is told apart by register `2` and
finds its argument in register `4`. -/
def userCode : Code := .act fun c d =>
  match c.instruction with
  | .ok r => some (.tick, { d with registers := r }, [.left r])
  | .exception => some (.halted, d, [])
  | .syscall =>
    let r := (d.registers.writeRegister Registers.BadVAddrReg 0).settle
    let k : Pc :=
      match (r 2).toNat with
      | 0 => .halted
      | 1 => .exit (r 4).toInt .check
      | 2 => if c.opened then .exec (.P c.name) else .sysret (-1)
      | 3 => .join (r 4).toInt .check
      | _ => .call
    some (k, { d with registers := r }, [.left r])

/-- The result goes to register `2`, and the program counter moves on. -/
def sysretCode (r : Int) : Code := .act fun _ d =>
  let r' := (d.registers.writeRegister 2 (BitVec.ofInt 32 r)).increaseProgramCounter
  some (.tick, { d with registers := r' }, [.left r'])

def callCode : Code := .act fun c d =>
  match c.call with
  | .P n => some (.callP n, d, [])
  | .V n => some (.callV n, d, [])
  | .return r => some (.tick, { d with registers := r }, [.left r])
  | .halt => some (.halted, d, [])

/-- `PTable::ExecUpdate(name)`. -/
def execCode (t : Tid) : ExecPc → Code
  | .P name => .P .bmsem (.exec (.check name))
  | .check name => .act fun c d =>
    let index := d.getFreeSlot
    if !c.opened || d.isNamed t name c.sameName || index < 0 then some (.exec (.V (-1) none), d, [])
    else
      let o := d.nextObject
      some (.exec (.multexP index o name),
        { d with
          pcb := Function.update d.pcb index (some o)
          object := Function.update d.object o
            ⟨d.processID t, none, (c.uninit 0).toInt, (c.uninit 1).toInt, name⟩
          nextObject := o + 1 },
        [])
  | .multexP index o name => .P (.multex o) (.exec (.fork index o name))
  | .fork index o name =>
    .fork (.startProcess2 index) (fun u => .exec (.multexV index o u)) fun u d =>
      { d.setObject o fun b => { b with thread := some u, parentID := d.processID t } with
        processID := Function.update d.processID u index
        threadName := Function.update d.threadName u (some name)
        space := Function.update d.space u none }
  | .multexV index o u => .V (.multex o) (.exec (.V index (some u)))
  | .V id u => .V .bmsem (.exec (.ret id u))
  | .ret id u => .act fun _ d =>
    -- `delete[] name`: the new thread keeps a pointer to it
    let threadName := match u with
      | some u => Function.update d.threadName u none
      | none => d.threadName
    some (.sysret id, { d with threadName := threadName }, [])

/-- `PTable::JoinUpdate(c)`. -/
def joinCode (t : Tid) (c : Int) : JoinPc → Code
  | .check => .act fun _ d =>
    if c < 0 ∨ (psize : Int) ≤ c then some (.sysret (-1), d, [])
    else
      match d.pcb c with
      | none => some (.sysret (-1), d, [])
      | some o =>
        if (d.object o).parentID ≠ d.processID t then some (.sysret (-1), d, [])
        else
          match d.pcb (d.object o).parentID with
          | none => some (.halted, d, [])
          | some p => some (.join c (.incP p), d, [.joinPassed c o])
  | .incP p => .P (.multex p) (.join c (.inc p))
  | .inc p => .act fun _ d =>
    some (.join c (.incV p), d.setObject p fun b => { b with numwait := incr b.numwait }, [])
  | .incV p => .V (.multex p) (.join c .lookup)
  | .lookup => .act fun _ d =>
    match d.pcb c with
    | none => some (.halted, d, [])
    | some o => some (.join c (.wait o), d, [])
  | .wait o => .P (.joinsem o) (.join c .read)
  | .read => .act fun _ d =>
    match d.pcb c with
    | none => some (.halted, d, [])
    | some o =>
      let e := (d.object o).exitcode
      some (.join c (.release o e), d, [.exitCodeRead c o e])
  | .release o e => .V (.exitsem o) (.join c (.ret o e))
  | .ret o e => .act fun _ d => some (.sysret e, d, [.joinReturned c o e])

/-- `Thread::FreeSpace`. -/
def freeSpace (d : Data) (t : Tid) : List Ev := (d.space t).toList.map .freed

/-- `PTable::ExitUpdate(e)`, with `PTable::Remove` and the destructor of `PCB`. -/
def exitCode (t : Tid) (e : Int) : ExitPc → Code
  | .check => .act fun _ d =>
    let pid := d.processID t
    if pid = 0 then some (.halted, d, freeSpace d t)
    else
      match d.pcb pid with
      | none => some (.sysret (-1), d, [])
      | some o =>
        match d.pcb (d.object o).parentID with
        | none => some (.halted, d, [])
        | some p =>
          some (.exit e (.decP p), d.setObject o fun b => { b with exitcode := e },
            [.exitCodeSet pid o e])
  | .decP p => .P (.multex p) (.exit e (.dec p))
  | .dec p => .act fun _ d =>
    some (.exit e (.decV p),
      d.setObject p fun b => if b.numwait ≠ 0 then { b with numwait := decr b.numwait } else b, [])
  | .decV p => .V (.multex p) (.exit e .lookup)
  | .lookup => .act fun _ d =>
    match d.pcb (d.processID t) with
    | none => some (.halted, d, [])
    | some o => some (.exit e (.release o), d, [])
  | .release o => .V (.joinsem o) (.exit e .lookupAgain)
  | .lookupAgain => .act fun _ d =>
    match d.pcb (d.processID t) with
    | none => some (.halted, d, [])
    | some o => some (.exit e (.wait o), d, [])
  | .wait o => .P (.exitsem o) (.exit e .remove)
  | .remove => .act fun _ d =>
    match d.pcb (d.processID t) with
    | none => some (.sysret e, d, [])
    | some o =>
      match (d.object o).thread with
      -- `Finish` does not return, so `pcb[pid] = NULL` comes only in the other branch
      | some u => some (if u = t then .exit e .finish else .halted, d, .destroyed o :: freeSpace d u)
      | none =>
        some (.sysret e, { d with pcb := Function.update d.pcb (d.processID t) none },
          [.destroyed o])
  | .finish => .finish

def code (t : Tid) : Pc → Code
  | .startProcess => .act fun c d =>
    if c.opened then some (newAddrSpace c d)
    else some (if c.another then .startProcess else .mainReturn, d, [])
  | .mainReturn => .finish
  | .startProcess2 id => .act fun c d =>
    -- `pTab->GetFileName(id)`
    match d.pcb id with
    | none => some (.halted, d, [])
    | some _ => some (newAddrSpace c d)
  | .construct a k => addrSpaceCode t a k
  | .user => userCode
  | .tick => .tick .user
  | .exec k => execCode t k
  | .join c k => joinCode t c k
  | .exit e k => exitCode t e k
  | .call => callCode
  | .callP n => .P (.other n) .call
  | .callV n => .V (.other n) .call
  | .sysret r => sysretCode r
  | .halted => .stop

/-- `Thread::SaveUserState`, for a thread that has an address space. -/
def saveUserState (t : Tid) (d : Data) : Data :=
  match d.space t with
  | none => d
  | some _ => { d with userRegisters := Function.update d.userRegisters t d.registers }

/-- `Thread::RestoreUserState` and `AddrSpace::RestoreState`. -/
def restoreUserState (t : Tid) (d : Data) : Data :=
  match d.space t with
  | none => d
  | some a =>
    { d with
      registers := d.userRegisters t
      pageTable := (d.addrSpace a).pageTable
      pageTableSize := (d.addrSpace a).numPages }

/-- The global data after `Initialize`. -/
def initialData : Data where
  pcb i := if i = 0 then some 0 else none
  object _ := ⟨-1, none, 0, 0, ""⟩
  nextObject := 1
  processID _ := 0
  threadName _ := some "main"
  gPhysPageBitMap := .ofSize 256
  addrSpace _ := ⟨.wild 0, 0, []⟩
  nextSpace := 0
  space _ := none
  userRegisters _ _ := 0
  registers _ := 0
  pageTable := .null
  pageTableSize := 0

/-- The system. `initial` gives the values of the semaphores of the other system calls. -/
def process (initial : ℕ → Int) : Program SemId Pc Data Ev Choice where
  code := code
  value
    | .bmsem | .addrLock | .multex _ => 1
    | .joinsem _ | .exitsem _ => 0
    | .other n => initial n
  start := .startProcess
  data := initialData
  device
    | .other _ => true
    | _ => false
  switchOut := saveUserState
  switchIn := restoreUserState
  interrupt d := { d with registers := d.registers.settle }

/-! ## Schedules

Concrete runs of a parent and a child, cut where the processor changes hands. No device
of the other system calls takes part. -/

abbrev quiet : Program SemId Pc Data Ev Choice := process fun _ => 0

abbrev Schedule := List (Kernel.Act SemId Choice)

def cpu (n : ℕ) : Schedule := List.replicate n (.cpu {})

/-- The user program loads the number of a system call and its argument, and traps. -/
def userCalls (number argument : BitVec 32) : Schedule :=
  .cpu { instruction := .ok fun i => if i = 2 then number else if i = 4 then argument else 0 } ::
    cpu 3

/-- From boot until the first program runs. -/
def bootSchedule : Schedule := cpu 12

/-- `Exec`, and back in the user program. -/
def execSchedule : Schedule := userCalls 2 0 ++ cpu 17

/-- `Join(1)`, until the parent sleeps and the child is dispatched. -/
def joinSchedule : Schedule := userCalls 3 1 ++ cpu 11

/-- A new process until its program runs. -/
def startSchedule : Schedule := cpu 14

/-- `Exit(7)`, until the child sleeps and the parent is dispatched. -/
def exitSchedule : Schedule := userCalls 1 7 ++ cpu 14

/-- The parent reads the exit code and releases the child. -/
def releaseSchedule : Schedule := cpu 5

/-- The timer lets the child run, which is removed and finishes. -/
def finishSchedule : Schedule := .interrupt .timer :: cpu 6

/-- A child is executed, joined and gone. -/
def lifeSchedule : Schedule :=
  bootSchedule ++ execSchedule ++ joinSchedule ++ startSchedule ++ exitSchedule ++
    releaseSchedule ++ finishSchedule

end Nachos
