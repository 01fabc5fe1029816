import Nachos.Lib.Concurrent

/-!
# The thread system

One processor, one current thread, a ready list, and semaphores with queues
(`synch.cc`, `thread.cc`, `scheduler.cc`, and the part of `interrupt.cc` that decides
when another thread may run). The code the threads execute is any `Program`.

Interrupts are looked at only where the simulator looks at them: when they are
re-enabled, after a user instruction, and while the machine idles. Which device
interrupts are due at such a point is left open.
-/
namespace Nachos

open Concurrent

/-- `enum ThreadStatus` of `thread.h`. -/
inductive ThreadStatus
  | JUST_CREATED | RUNNING | READY | BLOCKED
  deriving DecidableEq

/-- `enum IntStatus` of `interrupt.h`. -/
inductive IntStatus
  | IntOff | IntOn
  deriving DecidableEq

/-- `class Semaphore`: the value and the threads asleep in `P`, first come first. -/
structure Semaphore where
  value : Int
  queue : List Tid

/-- Where `SWITCH` takes a thread up again. A forked thread that has never run starts in
`ThreadRoot`; every other one returns inside the `Scheduler::Run` that switched it out.
`old` is the caller's interrupt level, kept on the thread's stack. -/
inductive Resume (S Pc : Type)
  | threadRoot
  | inYield (old : IntStatus)
  | inP (s : S) (k : Pc) (old : IntStatus)
  | inFinish
  deriving DecidableEq

/-- What the processor is executing. -/
inductive Ctrl (S Pc : Type)
  /-- The current thread's own code. -/
  | run
  /-- The test `value == 0` in the loop of `Semaphore::P`; `woken` after a `Sleep`. -/
  | testP (s : S) (k : Pc) (old : IntStatus) (woken : Bool)
  /-- The loop of `Thread::Sleep`. -/
  | sleep
  /-- Inside `Interrupt::Idle`, called from that loop. -/
  | idle
  /-- `SWITCH` has just given the processor to the current thread. -/
  | switched
  /-- The loop of `Interrupt::OneTick` over the interrupts that are due. -/
  | tick
  deriving DecidableEq

/-- What can be seen of a run of the thread system. -/
inductive KEvent (S Ev : Type)
  | sync (e : Event S Ev)
  /-- `Scheduler::ReadyToRun(t)`. -/
  | ready (t : Tid)
  /-- `Scheduler::Run(t)`. -/
  | dispatch (t : Tid)
  /-- `Thread::Finish` of `t`. -/
  | finish (t : Tid)
  /-- `delete threadToBeDestroyed`. -/
  | destroy (t : Tid)
  deriving DecidableEq

structure Kernel (S Pc D : Type) where
  currentThread : Tid
  readyList : List Tid
  threadToBeDestroyed : Option Tid
  status : Tid → ThreadStatus
  resume : Tid → Resume S Pc
  pc : Tid → Pc
  nextTid : Tid
  sem : S → Semaphore
  level : IntStatus
  yieldOnReturn : Bool
  ctrl : Ctrl S Pc
  data : D

variable {S Pc D Ev C : Type} [DecidableEq S]

namespace Kernel

/-- `Scheduler::ReadyToRun`. -/
def readyToRun (σ : Kernel S Pc D) (t : Tid) : Kernel S Pc D :=
  { σ with
    status := Function.update σ.status t .READY
    readyList := σ.readyList ++ [t] }

/-- `Semaphore::V` between its two calls of `SetLevel`. -/
def semaphoreV (σ : Kernel S Pc D) (s : S) : Kernel S Pc D :=
  match (σ.sem s).queue with
  | [] => { σ with sem := Function.update σ.sem s ⟨incr (σ.sem s).value, []⟩ }
  | t :: q =>
    readyToRun { σ with sem := Function.update σ.sem s ⟨incr (σ.sem s).value, q⟩ } t

/-- The threads `semaphoreV` makes ready. -/
def semaphoreVReady (σ : Kernel S Pc D) (s : S) : List (KEvent S Ev) :=
  ((σ.sem s).queue.take 1).map .ready

/-- `interrupt->SetLevel(old)` at the end of a kernel routine, interrupts being off.
Turning them on advances the time, and `OneTick` turns them off again for its handlers. -/
def setLevel (σ : Kernel S Pc D) (old : IntStatus) : Kernel S Pc D :=
  match old with
  | .IntOn => { σ with level := .IntOff, ctrl := .tick }
  | .IntOff => { σ with level := .IntOff, ctrl := .run }

/-- `Scheduler::Run` up to and including `SWITCH`. The caller has taken `next` off the
ready list and recorded where the current thread is to be resumed. -/
def dispatch (prog : Program S Pc D Ev C) (σ : Kernel S Pc D) (next : Tid) : Kernel S Pc D :=
  { σ with
    data := prog.switchOut σ.currentThread σ.data
    currentThread := next
    status := Function.update σ.status next .RUNNING
    ctrl := .switched }

/-- The rest of `Scheduler::Run`, in the thread `SWITCH` has returned to. -/
def afterSwitch (prog : Program S Pc D Ev C) (σ : Kernel S Pc D) : Kernel S Pc D :=
  { σ with
    threadToBeDestroyed := none
    data := prog.switchIn σ.currentThread σ.data }

def destroyed (σ : Kernel S Pc D) : List (KEvent S Ev) :=
  σ.threadToBeDestroyed.toList.map .destroy

/-- `Thread::Yield` of the current thread, called at level `old`. -/
def yield (prog : Program S Pc D Ev C) (σ : Kernel S Pc D) (old : IntStatus) :
    Kernel S Pc D × List (KEvent S Ev) :=
  match σ.readyList with
  | [] => (setLevel { σ with level := .IntOff } old, [])
  | next :: rest =>
    (dispatch prog
      { readyToRun { σ with level := .IntOff, readyList := rest } σ.currentThread with
        resume := Function.update σ.resume σ.currentThread (.inYield old) } next,
      [.ready σ.currentThread, .dispatch next])

/-- One pass of the loop of `Semaphore::P`. The thread goes to sleep when the value is
zero and will test again; otherwise it consumes a unit and leaves. -/
def testP (σ : Kernel S Pc D) (s : S) (k : Pc) (old : IntStatus) :
    Kernel S Pc D × List (KEvent S Ev) :=
  let t := σ.currentThread
  if (σ.sem s).value = 0 then
    ({ σ with
       sem := Function.update σ.sem s ⟨(σ.sem s).value, (σ.sem s).queue ++ [t]⟩
       status := Function.update σ.status t .BLOCKED
       resume := Function.update σ.resume t (.inP s k old)
       ctrl := .sleep }, [])
  else
    (setLevel
      { σ with
        sem := Function.update σ.sem s ⟨decr (σ.sem s).value, (σ.sem s).queue⟩
        pc := Function.update σ.pc t k } old,
      [.sync (.P t s)])

/-- The loop of `Thread::Sleep`. -/
def sleep (prog : Program S Pc D Ev C) (σ : Kernel S Pc D) :
    Kernel S Pc D × List (KEvent S Ev) :=
  match σ.readyList with
  | [] => ({ σ with ctrl := .idle }, [])
  | next :: rest => (dispatch prog { σ with readyList := rest } next, [.dispatch next])

/-- What a thread does when `SWITCH` has returned in it. A new thread enables interrupts
and calls its procedure; it does not pass through the end of `Scheduler::Run`. -/
def resumed (prog : Program S Pc D Ev C) (σ : Kernel S Pc D) :
    Option (Kernel S Pc D × List (KEvent S Ev)) :=
  match σ.resume σ.currentThread with
  | .threadRoot => some (setLevel σ .IntOn, [])
  | .inYield old => some (setLevel (afterSwitch prog σ) old, destroyed σ)
  | .inP s k old => some ({ afterSwitch prog σ with ctrl := .testP s k old true }, destroyed σ)
  | .inFinish => none

/-- The end of `Interrupt::OneTick`: interrupts are on again, and a timer interrupt may
have asked for a context switch. -/
def endTick (prog : Program S Pc D Ev C) (σ : Kernel S Pc D) :
    Kernel S Pc D × List (KEvent S Ev) :=
  if σ.yieldOnReturn then
    yield prog { σ with level := .IntOn, yieldOnReturn := false } .IntOn
  else
    ({ σ with level := .IntOn, ctrl := .run }, [])

/-- `Thread::Fork` of a new thread, with what its creator sets up in it before. -/
def fork (σ : Kernel S Pc D) (child : Pc) (k : Tid → Pc) (setup : Tid → D → D) :
    Kernel S Pc D :=
  let u := σ.nextTid
  setLevel
    (readyToRun
      { σ with
        nextTid := u + 1
        resume := Function.update σ.resume u .threadRoot
        pc := Function.update (Function.update σ.pc u child) σ.currentThread (k u)
        data := setup u σ.data } u)
    σ.level

/-- The next thing the current thread's own code does. -/
def thread (prog : Program S Pc D Ev C) (σ : Kernel S Pc D) (c : C) :
    Option (Kernel S Pc D × List (KEvent S Ev)) :=
  let t := σ.currentThread
  match prog.code t (σ.pc t) with
  | .P s k => some ({ σ with level := .IntOff, ctrl := .testP s k σ.level false }, [])
  | .V s k =>
    some (setLevel { σ.semaphoreV s with pc := Function.update σ.pc t k } σ.level,
      σ.semaphoreVReady s ++ [.sync (.V (some t) s)])
  | .yield k => some (yield prog { σ with pc := Function.update σ.pc t k } σ.level)
  | .tick k =>
    some ({ σ with pc := Function.update σ.pc t k, level := .IntOff, ctrl := .tick }, [])
  | .fork child k setup => some (σ.fork child k setup, [.ready σ.nextTid])
  | .act f =>
    (f c σ.data).map fun r =>
      ({ σ with pc := Function.update σ.pc t r.1, data := r.2.1 },
        r.2.2.map fun e => .sync (.act t e))
  | .finish =>
    some ({ σ with
            level := .IntOff
            threadToBeDestroyed := some t
            status := Function.update σ.status t .BLOCKED
            resume := Function.update σ.resume t .inFinish
            ctrl := .sleep }, [.finish t])
  | .stop => none

/-- An interrupt handler that is due: a device handler calls `V` or finds nothing to
report, the timer handler asks for a context switch. -/
inductive Handler (S : Type)
  | V (s : S)
  | poll
  | timer

/-- The handler, run by `CheckIfDue` with interrupts off. -/
def handler (prog : Program S Pc D Ev C) (σ : Kernel S Pc D) :
    Handler S → Option (Kernel S Pc D × List (KEvent S Ev))
  | .V s =>
    if prog.device s then
      some ({ σ.semaphoreV s with data := prog.interrupt σ.data },
        σ.semaphoreVReady s ++ [.sync (.V none s)])
    else none
  | .poll => some ({ σ with data := prog.interrupt σ.data }, [])
  | .timer => some ({ σ with data := prog.interrupt σ.data, yieldOnReturn := true }, [])

/-- One step: the processor goes on, or an interrupt handler runs where one may. -/
inductive Act (S C : Type)
  | cpu (c : C)
  | interrupt (h : Handler S)

def next (prog : Program S Pc D Ev C) (σ : Kernel S Pc D) :
    Act S C → Option (Kernel S Pc D × List (KEvent S Ev))
  | .cpu c =>
    match σ.ctrl with
    | .run => thread prog σ c
    | .testP s k old _ => some (testP σ s k old)
    | .sleep => some (sleep prog σ)
    | .idle => some ({ σ with yieldOnReturn := false, ctrl := .sleep }, [])
    | .switched => resumed prog σ
    | .tick => some (endTick prog σ)
  | .interrupt h =>
    match σ.ctrl with
    | .tick | .idle => handler prog σ h
    | _ => none

/-- The thread system after `Initialize`: the main thread runs and interrupts are on. -/
def boot (prog : Program S Pc D Ev C) : Kernel S Pc D where
  currentThread := 0
  readyList := []
  threadToBeDestroyed := none
  status t := if t = 0 then .RUNNING else .JUST_CREATED
  resume _ := .threadRoot
  pc _ := prog.start
  nextTid := 1
  sem s := ⟨prog.value s, []⟩
  level := .IntOn
  yieldOnReturn := false
  ctrl := .run
  data := prog.data

end Kernel

/-- The runs of `prog` under the Nachos thread system. -/
def kernel (prog : Program S Pc D Ev C) : System (Kernel S Pc D) (KEvent S Ev) :=
  .ofNext (Kernel.boot prog) (Kernel.next prog)

end Nachos
