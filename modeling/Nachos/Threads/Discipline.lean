import Nachos.Machine.Interrupt

/-!
# The interrupt discipline

The thread system once more, with the calls of every thread on a stack of its own, so that the
interrupt level is what the source has: one variable, saved by each call in a local of its own,
and handed from thread to thread at a switch. The threads run any code of their own, and the
interrupt handlers do what handlers may do.
-/
namespace Nachos

open Concurrent

/-- The routines that restore the interrupt level. -/
inductive Routine
  | P | V | Yield | Fork
  deriving DecidableEq

/-- A call that has not returned, at the point where it goes on. `entry` is the level its caller
had, and `oldLevel` the local of the source. -/
inductive Frame (S : Type)
  /-- `ThreadRoot` of a thread that has never run. -/
  | threadRoot
  /-- The last `SetLevel` of the routine returns to here. -/
  | leave (r : Routine) (entry : IntStatus)
  /-- The loop of `Semaphore::P`. -/
  | inP (s : S) (oldLevel entry : IntStatus)
  /-- `Thread::Yield` after `Run`. -/
  | inYield (oldLevel entry : IntStatus)
  /-- The loop of `Thread::Sleep`. -/
  | inSleep
  /-- `Scheduler::Run` after `SWITCH`. -/
  | inRun
  /-- `Thread::Finish` after `Sleep`. Not reached. -/
  | inFinish
  /-- The loop of `Interrupt::OneTick`; `old` is the status it found. -/
  | inTick (old : MachineStatus)
  /-- The end of `OneTick`, when the thread has yielded. -/
  | tickYielded (old : MachineStatus)
  /-- The loop of `Interrupt::Idle`. -/
  | inIdle
  /-- `CheckIfDue` during the call of a handler; `old` is the status it found. -/
  | inHandler (old : MachineStatus)
  deriving DecidableEq

/-- What can be seen of the interrupt level. -/
inductive LEvent (H : Type)
  /-- `Scheduler::Run(next)`, with the level and `inHandler` at the call. -/
  | run (next : Tid) (level : IntStatus) (inHandler : Bool)
  /-- A handler is called. -/
  | handler (p : PendingInterrupt H) (level : IntStatus)
  /-- A routine returns; its caller had the level `entry`. -/
  | returned (t : Tid) (r : Routine) (entry level : IntStatus)
  deriving DecidableEq

/-- What the discipline asks of such an event. -/
def LEvent.Ok {H : Type} : LEvent H → Prop
  | .run _ level inHandler => level = .IntOff ∧ inHandler = false
  | .handler _ level => level = .IntOff
  | .returned _ _ entry level => level = entry

structure ThreadSystem (S H : Type) where
  int : Interrupt H
  currentThread : Tid
  readyList : List Tid
  stack : Tid → List (Frame S)
  sem : S → Semaphore
  nextTid : Tid
  /-- An `ASSERT` has failed. -/
  aborted : Bool

namespace ThreadSystem

variable {S H : Type} [DecidableEq S]

abbrev Next (S H : Type) := ThreadSystem S H × List (LEvent H)

/-- The calls of the current thread. -/
def calls (σ : ThreadSystem S H) : List (Frame S) := σ.stack σ.currentThread

def goto (σ : ThreadSystem S H) (k : List (Frame S)) : ThreadSystem S H :=
  { σ with stack := Function.update σ.stack σ.currentThread k }

def abort (σ : ThreadSystem S H) : ThreadSystem S H := { σ with aborted := true }

/-- `Interrupt::OneTick` up to its loop. The stack below is `k`. -/
def oneTick (σ : ThreadSystem S H) (k : List (Frame S)) : ThreadSystem S H :=
  goto { σ with int := σ.int.advanceTime.changeLevel .IntOff } (.inTick σ.int.status :: k)

/-- `Interrupt::SetLevel`, which returns to `k`. -/
def setLevel (σ : ThreadSystem S H) (now : IntStatus) (k : List (Frame S)) : ThreadSystem S H :=
  if now = .IntOff ∨ σ.int.inHandler = false then
    if now = .IntOn ∧ σ.int.level = .IntOff then
      oneTick { σ with int := σ.int.changeLevel now } k
    else goto { σ with int := σ.int.changeLevel now } k
  else abort σ

/-- `Scheduler::ReadyToRun`. -/
def readyToRun (σ : ThreadSystem S H) (t : Tid) : ThreadSystem S H :=
  { σ with readyList := σ.readyList ++ [t] }

/-- `Scheduler::Run`, which is to return to `k`. -/
def run (σ : ThreadSystem S H) (next : Tid) (k : List (Frame S)) : Next S H :=
  ({ goto σ (.inRun :: k) with currentThread := next },
    [.run next σ.int.level σ.int.inHandler])

/-- `Thread::Sleep` up to its loop. -/
def sleep (σ : ThreadSystem S H) (this : Tid) (k : List (Frame S)) : ThreadSystem S H :=
  if this = σ.currentThread ∧ σ.int.level = .IntOff then goto σ (.inSleep :: k) else abort σ

/-- `Thread::Yield`. -/
def yield (σ : ThreadSystem S H) (this : Tid) (k : List (Frame S)) : Next S H :=
  let oldLevel := σ.int.level
  let σ₁ := setLevel σ .IntOff k
  if this = σ₁.currentThread then
    match σ₁.readyList with
    | [] => (setLevel σ₁ oldLevel (.leave .Yield σ.int.level :: k), [])
    | nextThread :: rest =>
      run (readyToRun { σ₁ with readyList := rest } this) nextThread
        (.inYield oldLevel σ.int.level :: k)
  else (abort σ₁, [])

/-- `Thread::Finish`. -/
def finish (σ : ThreadSystem S H) (this : Tid) : ThreadSystem S H :=
  let σ₁ := setLevel σ .IntOff []
  if this = σ₁.currentThread then sleep σ₁ this [.inFinish] else abort σ₁

/-- `Thread::Fork` of a new thread. -/
def fork (σ : ThreadSystem S H) (k : List (Frame S)) : ThreadSystem S H :=
  let u := σ.nextTid
  let oldLevel := σ.int.level
  let σ₁ := setLevel { σ with nextTid := u + 1 } .IntOff k
  setLevel (readyToRun { σ₁ with stack := Function.update σ₁.stack u [.threadRoot] } u) oldLevel
    (.leave .Fork σ.int.level :: k)

/-- `Semaphore::P` up to its loop. -/
def semaphoreP (σ : ThreadSystem S H) (s : S) (k : List (Frame S)) : ThreadSystem S H :=
  setLevel σ .IntOff (.inP s σ.int.level σ.int.level :: k)

/-- The loop of `Semaphore::P`, and what follows it. -/
def testP (σ : ThreadSystem S H) (s : S) (oldLevel entry : IntStatus) (k : List (Frame S)) :
    ThreadSystem S H :=
  let x := σ.sem s
  if x.value = 0 then
    sleep { σ with sem := Function.update σ.sem s ⟨x.value, x.queue ++ [σ.currentThread]⟩ }
      σ.currentThread (.inP s oldLevel entry :: k)
  else
    setLevel { σ with sem := Function.update σ.sem s ⟨decr x.value, x.queue⟩ } oldLevel
      (.leave .P entry :: k)

/-- `Semaphore::V`. -/
def semaphoreV (σ : ThreadSystem S H) (s : S) (k : List (Frame S)) : ThreadSystem S H :=
  let oldLevel := σ.int.level
  let σ₁ := setLevel σ .IntOff k
  let x := σ₁.sem s
  let σ₂ := { σ₁ with
    sem := Function.update σ₁.sem s ⟨incr x.value, x.queue.tail⟩
    readyList := σ₁.readyList ++ x.queue.head?.toList }
  setLevel σ₂ oldLevel (.leave .V σ.int.level :: k)

/-- A call of `CheckIfDue`: it calls a handler, which is to return to `k`, or goes on with
`no`. -/
def checkIfDue (σ : ThreadSystem S H) (advanceClock : Bool) (k : List (Frame S))
    (no : ThreadSystem S H → Option (Next S H)) : Option (Next S H) :=
  match σ.int.checkIfDue advanceClock with
  | none => some (abort σ, [])
  | some (i, some p) =>
    some (goto { σ with int := i } (.inHandler σ.int.status :: k), [.handler p i.level])
  | some (i, none) => no { σ with int := i }

/-- The loop of `Thread::Sleep`, with the start of `Interrupt::Idle`. When that finds nothing
the machine halts. -/
def sleepLoop (σ : ThreadSystem S H) (k : List (Frame S)) : Option (Next S H) :=
  match σ.readyList with
  | nextThread :: rest => some (run { σ with readyList := rest } nextThread k)
  | [] =>
    checkIfDue { σ with int := { σ.int with status := .IdleMode } } true
      (.inIdle :: .inSleep :: k) fun _ => none

/-- The loop of `Interrupt::Idle`, and what follows it. -/
def idleLoop (σ : ThreadSystem S H) (k : List (Frame S)) : Option (Next S H) :=
  checkIfDue σ false (.inIdle :: k) fun σ =>
    some (goto { σ with int := { σ.int with yieldOnReturn := false, status := .SystemMode } } k, [])

/-- The loop of `Interrupt::OneTick`, and what follows it. -/
def tickLoop (σ : ThreadSystem S H) (old : MachineStatus) (k : List (Frame S)) :
    Option (Next S H) :=
  checkIfDue σ false (.inTick old :: k) fun σ =>
    let σ₁ := { σ with int := σ.int.changeLevel .IntOn }
    if σ₁.int.yieldOnReturn then
      some (yield { σ₁ with int := { σ₁.int with yieldOnReturn := false, status := .SystemMode } }
        σ₁.currentThread (.tickYielded old :: k))
    else some (goto σ₁ k, [])

/-- What a thread, or a handler, calls. -/
inductive Call (S H : Type)
  | P (s : S)
  | V (s : S)
  | yield
  | fork
  | finish
  | setLevel (now : IntStatus)
  | oneTick
  | setStatus (st : MachineStatus)
  | schedule (handler : H) (arg : BitVec 32) (fromNow : ℕ) (type : IntType)
  | yieldOnReturn
  /-- The handler returns. -/
  | handlerReturn

/-- A call by the thread's own code. `OneTick` is called after a user instruction. -/
def threadCall (σ : ThreadSystem S H) : Call S H → Option (Next S H)
  | .P s => some (semaphoreP σ s [], [])
  | .V s => some (semaphoreV σ s [], [])
  | .yield => some (yield σ σ.currentThread [])
  | .fork => some (fork σ [], [])
  | .finish => some (finish σ σ.currentThread, [])
  | .setLevel now => some (setLevel σ now [], [])
  | .oneTick => some (oneTick σ [], [])
  | .setStatus st =>
    if st = .IdleMode then none else some ({ σ with int := { σ.int with status := st } }, [])
  | .schedule handler arg fromNow type =>
    (σ.int.schedule handler arg fromNow type).map fun i => ({ σ with int := i }, [])
  | .yieldOnReturn | .handlerReturn => none

/-- A call by an interrupt handler. The handlers of the devices call `V` and schedule the next
interrupt of theirs, and that of the timer calls `YieldOnReturn`. -/
def handlerCall (σ : ThreadSystem S H) (old : MachineStatus) (k : List (Frame S)) :
    Call S H → Option (Next S H)
  | .V s => some (semaphoreV σ s (.inHandler old :: k), [])
  | .schedule handler arg fromNow type =>
    (σ.int.schedule handler arg fromNow type).map fun i => ({ σ with int := i }, [])
  | .yieldOnReturn =>
    match σ.int.setYieldOnReturn with
    | some i => some ({ σ with int := i }, [])
    | none => some (abort σ, [])
  | .handlerReturn => some (goto { σ with int := σ.int.handlerReturn old } k, [])
  | _ => none

/-- One step: the code of a thread or of a handler makes a call, or a call goes on. -/
def next (σ : ThreadSystem S H) (c : Option (Call S H)) : Option (Next S H) :=
  if σ.aborted then none else
  match σ.calls, c with
  | [], some c => threadCall σ c
  | .inHandler old :: k, some c => handlerCall σ old k c
  | .threadRoot :: k, none => some (setLevel σ .IntOn k, [])
  | .leave r entry :: k, none =>
    some (goto σ k, [.returned σ.currentThread r entry σ.int.level])
  | .inP s oldLevel entry :: k, none => some (testP σ s oldLevel entry k, [])
  | .inYield oldLevel entry :: k, none => some (setLevel σ oldLevel (.leave .Yield entry :: k), [])
  | .inSleep :: k, none => sleepLoop σ k
  | .inRun :: k, none => some (goto σ k, [])
  | .inTick old :: k, none => tickLoop σ old k
  | .tickYielded old :: k, none =>
    some (goto { σ with int := { σ.int with status := old } } k, [])
  | .inIdle :: k, none => idleLoop σ k
  | _, _ => none

/-- The machine when `Initialize` is about to enable interrupts in the main thread. The timer,
if there is one, has been started. -/
def boot (value : S → Int) (timer : Option (H × BitVec 32 × ℕ)) : ThreadSystem S H where
  int :=
    match timer with
    | none => .boot
    | some (handler, arg, n) => (Interrupt.boot.schedule handler arg n .TimerInt).getD .boot
  currentThread := 0
  readyList := []
  stack _ := [.threadRoot]
  sem s := ⟨value s, []⟩
  nextTid := 1
  aborted := false

end ThreadSystem

/-- The runs from `Initialize` on, with any threads, semaphores and devices. -/
def threadSystem {S H : Type} [DecidableEq S] (value : S → Int)
    (timer : Option (H × BitVec 32 × ℕ)) : System (ThreadSystem S H) (LEvent H) :=
  .ofNext (ThreadSystem.boot value timer) ThreadSystem.next

namespace ThreadSystem

variable {S H : Type} [DecidableEq S] {σ τ : ThreadSystem S H} {es : List (LEvent H)}
  {k : List (Frame S)} {l old : IntStatus} {r : Routine} {s : S} {t : Tid}

/-- The level at which a stack of calls may be returned to. The routines are returned to by
their last `SetLevel` with the level of their callers, `OneTick` leaves interrupts on, and
everything else goes on with interrupts off. -/
def Fits : IntStatus → List (Frame S) → Prop
  | _, [] => True
  | l, .leave _ entry :: k => l = entry ∧ Fits entry k
  | l, .inP _ old entry :: k | l, .inYield old entry :: k => l = .IntOff ∧ old = entry ∧ Fits entry k
  | l, .tickYielded _ :: k => l = .IntOn ∧ Fits .IntOn k
  | l, .inTick _ :: k | l, .threadRoot :: k => l = .IntOff ∧ Fits .IntOn k
  | l, .inSleep :: k | l, .inRun :: k | l, .inIdle :: k | l, .inHandler _ :: k =>
    l = .IntOff ∧ Fits .IntOff k
  | _, .inFinish :: _ => True

/-- No handler is being called. -/
def Calm (k : List (Frame S)) : Prop := ∀ old, .inHandler old ∉ k

/-- A handler is being called, and may itself have called `V`, if and only if the flag says so. -/
def InHandler : Bool → List (Frame S) → Prop
  | false, k => Calm k
  | true, k => ∃ old k', Calm k' ∧
    (k = .inHandler old :: k' ∨ ∃ entry, k = .leave .V entry :: .inHandler old :: k')

/-- A thread that is not running expects to be resumed with interrupts off. -/
structure Rest (σ : ThreadSystem S H) : Prop where
  alive : σ.aborted = false
  others : ∀ t, t ≠ σ.currentThread → Fits .IntOff (σ.stack t) ∧ Calm (σ.stack t)

/-- The invariant. -/
structure Good (σ : ThreadSystem S H) : Prop extends Rest σ where
  fits : Fits σ.int.level σ.calls
  handler : InHandler σ.int.inHandler σ.calls

section

omit [DecidableEq S]

@[simp] theorem calls_goto (σ : ThreadSystem S H) (k : List (Frame S)) : (goto σ k).calls = k :=
  Function.update_self ..

theorem Rest.moved (h : Rest σ) (k : List (Frame S)) : Rest (goto σ k) where
  alive := h.alive
  others t ht := by
    have hst : (goto σ k).stack t = σ.stack t := Function.update_of_ne ht ..
    rw [hst]
    exact h.others t ht

theorem Rest.good_goto (h : Rest σ) (hf : Fits σ.int.level k)
    (hh : InHandler σ.int.inHandler k) : Good (goto σ k) where
  toRest := h.moved k
  fits := by
    rw [calls_goto]
    exact hf
  handler := by
    rw [calls_goto]
    exact hh

theorem calm_cons {f : Frame S} (hf : ∀ old, f ≠ .inHandler old) :
    Calm (f :: k) ↔ Calm k := by
  constructor
  · exact fun h old hm => h old (List.mem_cons_of_mem f hm)
  · intro h old hm
    rcases List.mem_cons.mp hm with rfl | hm
    · exact hf old rfl
    · exact h old hm

theorem Rest.good_oneTick (h : Rest σ) (hb : σ.int.inHandler = false) (hf : Fits .IntOn k)
    (hh : Calm k) : Good (oneTick σ k) := by
  have hadv : σ.int.advanceTime.inHandler = false := by
    unfold Interrupt.advanceTime
    split
    · exact hb
    · exact hb
  have hrest : Rest { σ with int := σ.int.advanceTime.changeLevel .IntOff } := ⟨h.alive, h.others⟩
  refine hrest.good_goto ⟨rfl, hf⟩ ?_
  change InHandler σ.int.advanceTime.inHandler _
  rw [hadv]
  exact (calm_cons (by simp)).mpr hh

/-- `SetLevel` returns at the level it is given, at once or after `OneTick`. -/
theorem Rest.good_setLevel (h : Rest σ) (hf : Fits l k) (hh : InHandler σ.int.inHandler k)
    (hl : σ.int.inHandler = true → l = .IntOff) : Good (setLevel σ l k) := by
  have hassert : l = .IntOff ∨ σ.int.inHandler = false := by
    cases hb : σ.int.inHandler with
    | false => exact .inr rfl
    | true => exact .inl (hl hb)
  have hrest : Rest { σ with int := σ.int.changeLevel l } := ⟨h.alive, h.others⟩
  unfold setLevel
  rw [if_pos hassert]
  split
  · next htick =>
    obtain ⟨rfl, -⟩ := htick
    have hb : σ.int.inHandler = false := by simpa using hassert
    rw [hb] at hh
    exact hrest.good_oneTick hb hf hh
  · exact hrest.good_goto hf hh

/-- Turning interrupts off is only that. -/
theorem setLevel_off (σ : ThreadSystem S H) (k : List (Frame S)) :
    setLevel σ .IntOff k = goto { σ with int := σ.int.changeLevel .IntOff } k := by
  simp [setLevel]

@[simp] theorem setLevel_off_currentThread (σ : ThreadSystem S H) (k : List (Frame S)) :
    (setLevel σ .IntOff k).currentThread = σ.currentThread := by
  rw [setLevel_off]
  rfl

@[simp] theorem setLevel_off_level (σ : ThreadSystem S H) (k : List (Frame S)) :
    (setLevel σ .IntOff k).int.level = .IntOff := by
  rw [setLevel_off]
  rfl

@[simp] theorem setLevel_off_inHandler (σ : ThreadSystem S H) (k : List (Frame S)) :
    (setLevel σ .IntOff k).int.inHandler = σ.int.inHandler := by
  rw [setLevel_off]
  rfl

theorem Rest.off (h : Rest σ) (k : List (Frame S)) : Rest (setLevel σ .IntOff k) := by
  have hrest : Rest { σ with int := σ.int.changeLevel .IntOff } := ⟨h.alive, h.others⟩
  rw [setLevel_off]
  exact hrest.moved k

/-- `Run` is called with interrupts off and outside of a handler, and whichever thread it
resumes expects just that. -/
theorem Rest.good_run (h : Rest σ) (hl : σ.int.level = .IntOff) (hb : σ.int.inHandler = false)
    (hf : Fits .IntOff k) (hc : Calm k) (u : Tid) :
    Good (run σ u k).1 ∧ ∀ e ∈ (run σ u k).2, e.Ok := by
  have hall : ∀ t, Fits .IntOff ((goto σ (.inRun :: k)).stack t) ∧
      Calm ((goto σ (.inRun :: k)).stack t) := by
    intro t
    by_cases ht : t = σ.currentThread
    · subst ht
      have hst : (goto σ (.inRun :: k)).stack σ.currentThread = .inRun :: k :=
        Function.update_self ..
      rw [hst]
      exact ⟨⟨rfl, hf⟩, (calm_cons (by simp)).mpr hc⟩
    · exact (h.moved _).others t ht
  refine ⟨⟨⟨h.alive, fun t _ => hall t⟩, ?_, ?_⟩, ?_⟩
  · change Fits σ.int.level _
    rw [hl]
    exact (hall u).1
  · change InHandler σ.int.inHandler _
    rw [hb]
    exact (hall u).2
  · intro e he
    cases List.mem_singleton.mp he
    exact ⟨hl, hb⟩

theorem Rest.good_sleep (h : Rest σ) (ht : t = σ.currentThread) (hl : σ.int.level = .IntOff)
    (hb : σ.int.inHandler = false) (hf : Fits .IntOff k) (hc : Calm k) :
    Good (sleep σ t k) := by
  unfold sleep
  rw [if_pos ⟨ht, hl⟩]
  refine h.good_goto ⟨hl, hf⟩ ?_
  rw [hb]
  exact (calm_cons (by simp)).mpr hc

/-- `Yield` keeps the discipline at whatever level it is called. -/
theorem Rest.good_yield (h : Rest σ) (hb : σ.int.inHandler = false)
    (hf : Fits σ.int.level k) (hc : Calm k) :
    Good (yield σ σ.currentThread k).1 ∧ ∀ e ∈ (yield σ σ.currentThread k).2, e.Ok := by
  have hrest := h.off k
  have hin := (setLevel_off_inHandler σ k).trans hb
  unfold yield
  simp only
  rw [if_pos (setLevel_off_currentThread σ k).symm]
  split
  · refine ⟨hrest.good_setLevel ⟨rfl, hf⟩ ?_ fun ht => ?_, fun e he => by cases he⟩
    · rw [hin]
      exact (calm_cons (by simp)).mpr hc
    · rw [hin] at ht
      cases ht
  · next nextThread rest _ =>
    have hk : Fits .IntOff (.inYield σ.int.level σ.int.level :: k) := ⟨rfl, rfl, hf⟩
    have hcalm : Calm (.inYield σ.int.level σ.int.level :: k) := (calm_cons (by simp)).mpr hc
    have hready : Rest (readyToRun { setLevel σ .IntOff k with readyList := rest }
        σ.currentThread) := ⟨hrest.alive, hrest.others⟩
    exact hready.good_run (setLevel_off_level σ k) hin hk hcalm nextThread

/-- `CheckIfDue` in a loop with interrupts off: its assertion holds, and the handler it may call
finds them off. -/
theorem Rest.good_checkIfDue {adv : Bool} {no : ThreadSystem S H → Option (Next S H)}
    (h : Rest σ) (hs : checkIfDue σ adv k no = some (τ, es)) (hl : σ.int.level = .IntOff)
    (hb : σ.int.inHandler = false) (hf : Fits .IntOff k) (hc : Calm k)
    (hno : ∀ σ', Rest σ' → σ'.int.level = .IntOff → σ'.int.inHandler = false →
      no σ' = some (τ, es) → Good τ ∧ ∀ e ∈ es, e.Ok) : Good τ ∧ ∀ e ∈ es, e.Ok := by
  obtain ⟨⟨i, o⟩, hi⟩ := Interrupt.exists_checkIfDue adv hl
  obtain ⟨hil, hib⟩ := Interrupt.checkIfDue_level hi
  rw [hl] at hil
  have hrest : Rest { σ with int := i } := ⟨h.alive, h.others⟩
  unfold checkIfDue at hs
  cases o with
  | none =>
    simp only [hi] at hs
    exact hno _ hrest hil (hib.trans hb) hs
  | some p =>
    simp only [hi] at hs
    cases hs
    refine ⟨hrest.good_goto ⟨hil, hf⟩ ?_, fun e he => ?_⟩
    · have hset : i.inHandler = true := hib
      change InHandler i.inHandler _
      rw [hset]
      exact ⟨_, k, hc, .inl rfl⟩
    · cases List.mem_singleton.mp he
      exact hil

theorem Rest.good_fork (h : Rest σ) (hb : σ.int.inHandler = false) (hf : Fits σ.int.level k)
    (hc : Calm k) : Good (fork σ k) := by
  have hnew : Rest { σ with nextTid := σ.nextTid + 1 } := ⟨h.alive, h.others⟩
  have hrest := hnew.off k
  have hin := (setLevel_off_inHandler { σ with nextTid := σ.nextTid + 1 } k).trans hb
  unfold fork
  refine Rest.good_setLevel ⟨hrest.alive, fun t ht => ?_⟩ ⟨rfl, hf⟩ ?_ fun hh => ?_
  · simp only [readyToRun]
    by_cases hu : t = σ.nextTid
    · rw [hu, Function.update_self]
      exact ⟨⟨rfl, trivial⟩, fun old hm => by simp at hm⟩
    · rw [Function.update_of_ne hu]
      exact hrest.others t ht
  · simp only [readyToRun, hin]
    exact (calm_cons (by simp)).mpr hc
  · exact absurd (hin.symm.trans hh) (by decide)

theorem Rest.good_sleepLoop (h : Rest σ) (hl : σ.int.level = .IntOff)
    (hb : σ.int.inHandler = false) (hf : Fits .IntOff k) (hc : Calm k)
    (hs : sleepLoop σ k = some (τ, es)) : Good τ ∧ ∀ e ∈ es, e.Ok := by
  unfold sleepLoop at hs
  split at hs
  · next u rest _ =>
    have hrest : Rest { σ with readyList := rest } := ⟨h.alive, h.others⟩
    have hrun := hrest.good_run hl hb hf hc u
    rw [Option.some.inj hs] at hrun
    exact hrun
  · have hidle : Rest { σ with int := { σ.int with status := .IdleMode } } := ⟨h.alive, h.others⟩
    refine hidle.good_checkIfDue hs hl hb ⟨rfl, rfl, hf⟩ ?_ fun σ' _ _ _ hno => by cases hno
    exact (calm_cons (by simp)).mpr ((calm_cons (by simp)).mpr hc)

theorem Rest.good_idleLoop (h : Rest σ) (hl : σ.int.level = .IntOff)
    (hb : σ.int.inHandler = false) (hf : Fits .IntOff k) (hc : Calm k)
    (hs : idleLoop σ k = some (τ, es)) : Good τ ∧ ∀ e ∈ es, e.Ok := by
  unfold idleLoop at hs
  refine h.good_checkIfDue hs hl hb ⟨rfl, hf⟩ ((calm_cons (by simp)).mpr hc) ?_
  intro σ' h' hl' hb' hno
  cases hno
  refine ⟨Rest.good_goto ⟨h'.alive, h'.others⟩ ?_ ?_, fun e he => by cases he⟩
  · rw [hl']
    exact hf
  · rw [hb']
    exact hc

/-- `OneTick` leaves interrupts on, and so does the `Yield` it may call. -/
theorem Rest.good_tickLoop {old : MachineStatus} (h : Rest σ) (hl : σ.int.level = .IntOff)
    (hb : σ.int.inHandler = false) (hf : Fits .IntOn k) (hc : Calm k)
    (hs : tickLoop σ old k = some (τ, es)) : Good τ ∧ ∀ e ∈ es, e.Ok := by
  unfold tickLoop at hs
  refine h.good_checkIfDue hs hl hb ⟨rfl, hf⟩ ((calm_cons (by simp)).mpr hc) ?_
  intro σ' h' hl' hb' hno
  simp only at hno
  split at hno
  · have hrest : Rest { σ' with int := { σ'.int.changeLevel .IntOn with
        yieldOnReturn := false, status := .SystemMode } } := ⟨h'.alive, h'.others⟩
    have hk : Fits .IntOn (.tickYielded old :: k) := ⟨rfl, hf⟩
    have hy := hrest.good_yield hb' hk ((calm_cons (by simp)).mpr hc)
    have he := Option.some.inj hno
    rw [he] at hy
    exact hy
  · cases hno
    refine ⟨Rest.good_goto ⟨h'.alive, h'.others⟩ hf ?_, fun e he => by cases he⟩
    change InHandler σ'.int.inHandler k
    rw [hb']
    exact hc

end

/-- `V` keeps the discipline, also when a handler calls it. -/
theorem Rest.good_semaphoreV (h : Rest σ) (hf : Fits σ.int.level k)
    (hh : InHandler σ.int.inHandler (.leave .V σ.int.level :: k))
    (hl : σ.int.inHandler = true → σ.int.level = .IntOff) (s : S) : Good (semaphoreV σ s k) := by
  have hrest := h.off k
  have hin := setLevel_off_inHandler σ k
  unfold semaphoreV
  refine Rest.good_setLevel ⟨hrest.alive, hrest.others⟩ ⟨rfl, hf⟩ ?_ fun ht => ?_
  · simp only [hin]
    exact hh
  · exact hl (hin.symm.trans ht)

theorem Rest.good_testP {entry : IntStatus} (h : Rest σ) (hl : σ.int.level = .IntOff)
    (hb : σ.int.inHandler = false) (hf : Fits entry k) (hc : Calm k) (s : S) :
    Good (testP σ s entry entry k) := by
  unfold testP
  simp only
  split
  · refine Rest.good_sleep ⟨h.alive, h.others⟩ rfl hl hb ⟨rfl, rfl, hf⟩ ?_
    exact (calm_cons (by simp)).mpr hc
  · refine Rest.good_setLevel ⟨h.alive, h.others⟩ ⟨rfl, hf⟩ ?_ fun hin => ?_
    · change InHandler σ.int.inHandler _
      rw [hb]
      exact (calm_cons (by simp)).mpr hc
    · exact absurd (hb.symm.trans hin) (by decide)

omit [DecidableEq S] in
/-- Above any other frame than these two the flag is off. -/
theorem InHandler.calm {b : Bool} (h : InHandler b k) (hv : ∀ entry k', k ≠ .leave .V entry :: k')
    (hh : ∀ old k', k ≠ .inHandler old :: k') : b = false ∧ Calm k := by
  cases b with
  | false => exact ⟨rfl, h⟩
  | true =>
    obtain ⟨old, k', -, hk | ⟨entry, hk⟩⟩ := h
    · exact absurd hk (hh old k')
    · exact absurd hk (hv entry _)

omit [DecidableEq S] in
/-- A step that only touches the interrupt hardware, and neither level nor flag. -/
theorem Good.hardware {i : Interrupt H} (hg : Good σ) (hl : i.level = σ.int.level)
    (hb : i.inHandler = σ.int.inHandler) : Good { σ with int := i } where
  toRest := ⟨hg.alive, hg.others⟩
  fits := by
    change Fits i.level σ.calls
    rw [hl]
    exact hg.fits
  handler := by
    change InHandler i.inHandler σ.calls
    rw [hb]
    exact hg.handler

theorem schedule_level {i j : Interrupt H} {handler : H} {arg : BitVec 32} {fromNow : ℕ}
    {type : IntType} (h : i.schedule handler arg fromNow type = some j) :
    j.level = i.level ∧ j.inHandler = i.inHandler := by
  unfold Interrupt.schedule at h
  split at h
  · cases h
    exact ⟨rfl, rfl⟩
  · cases h

/-- Whatever the thread's own code calls. -/
theorem Good.threadCall {c : Call S H} (hg : Good σ) (hk : σ.calls = [])
    (hs : threadCall σ c = some (τ, es)) : Good τ ∧ ∀ e ∈ es, e.Ok := by
  have hh := hg.handler
  rw [hk] at hh
  obtain ⟨hb, hc⟩ := hh.calm (by simp) (by simp)
  have hnot : ∀ {l : IntStatus}, σ.int.inHandler = true → l = .IntOff := fun ht => by
    rw [hb] at ht
    cases ht
  have hnil : ∀ l, Fits l ([] : List (Frame S)) := fun _ => trivial
  cases c with
  | P s =>
    cases hs
    refine ⟨hg.toRest.good_setLevel ⟨rfl, rfl, hnil _⟩ ?_ hnot, fun e he => by cases he⟩
    rw [hb]
    exact (calm_cons (by simp)).mpr hc
  | V s =>
    cases hs
    refine ⟨hg.toRest.good_semaphoreV (hnil _) ?_ hnot s, fun e he => by cases he⟩
    rw [hb]
    exact (calm_cons (by simp)).mpr hc
  | yield =>
    have hy := hg.toRest.good_yield hb (hnil _) hc
    rw [Option.some.inj hs] at hy
    exact hy
  | fork =>
    cases hs
    exact ⟨hg.toRest.good_fork hb (hnil _) hc, fun e he => by cases he⟩
  | finish =>
    cases hs
    refine ⟨?_, fun e he => by cases he⟩
    have hcur := setLevel_off_currentThread σ ([] : List (Frame S))
    have hin := (setLevel_off_inHandler σ ([] : List (Frame S))).trans hb
    unfold finish
    simp only
    rw [if_pos hcur.symm]
    exact (hg.toRest.off []).good_sleep hcur.symm (setLevel_off_level σ []) hin trivial
      ((calm_cons (by simp)).mpr hc)
  | setLevel now =>
    cases hs
    refine ⟨hg.toRest.good_setLevel (hnil _) ?_ hnot, fun e he => by cases he⟩
    rw [hb]
    exact hc
  | oneTick =>
    cases hs
    exact ⟨hg.toRest.good_oneTick hb (hnil _) hc, fun e he => by cases he⟩
  | setStatus st =>
    simp only [ThreadSystem.threadCall] at hs
    split at hs
    · cases hs
    · cases hs
      exact ⟨hg.hardware rfl rfl, fun e he => by cases he⟩
  | schedule handler arg fromNow type =>
    obtain ⟨i, hi, he⟩ := Option.map_eq_some_iff.mp hs
    cases he
    exact ⟨hg.hardware (schedule_level hi).1 (schedule_level hi).2, fun e he => by cases he⟩
  | yieldOnReturn => cases hs
  | handlerReturn => cases hs

/-- Whatever a handler calls. -/
theorem Good.handlerCall {c : Call S H} {old : MachineStatus} (hg : Good σ)
    (hk : σ.calls = .inHandler old :: k) (hs : handlerCall σ old k c = some (τ, es)) :
    Good τ ∧ ∀ e ∈ es, e.Ok := by
  obtain ⟨hl, hf⟩ : σ.int.level = .IntOff ∧ Fits .IntOff k := by
    have hfits := hg.fits
    rwa [hk] at hfits
  obtain ⟨hb, hc⟩ : σ.int.inHandler = true ∧ Calm k := by
    have hh := hg.handler
    rw [hk] at hh
    cases hb : σ.int.inHandler with
    | false =>
      rw [hb] at hh
      exact absurd List.mem_cons_self (hh old)
    | true =>
      rw [hb] at hh
      obtain ⟨_, k', hc, hcons | ⟨_, hcons⟩⟩ := hh
      · cases hcons
        exact ⟨rfl, hc⟩
      · cases hcons
  cases c with
  | V s =>
    cases hs
    refine ⟨hg.toRest.good_semaphoreV ?_ ?_ (fun _ => hl) s, fun e he => by cases he⟩
    · rw [hl]
      exact ⟨rfl, hf⟩
    · rw [hb]
      exact ⟨old, k, hc, .inr ⟨_, rfl⟩⟩
  | schedule handler arg fromNow type =>
    obtain ⟨i, hi, he⟩ := Option.map_eq_some_iff.mp hs
    cases he
    exact ⟨hg.hardware (schedule_level hi).1 (schedule_level hi).2, fun e he => by cases he⟩
  | yieldOnReturn =>
    simp only [ThreadSystem.handlerCall, Interrupt.setYieldOnReturn, if_pos hb] at hs
    cases hs
    exact ⟨hg.hardware rfl rfl, fun e he => by cases he⟩
  | handlerReturn =>
    cases hs
    have hrest : Rest { σ with int := σ.int.handlerReturn old } := ⟨hg.alive, hg.others⟩
    refine ⟨hrest.good_goto ?_ hc, fun e he => by cases he⟩
    change Fits σ.int.level k
    rw [hl]
    exact hf
  | _ => cases hs

theorem good_step {c : Option (Call S H)} (hg : Good σ) (hs : next σ c = some (τ, es)) :
    Good τ ∧ ∀ e ∈ es, e.Ok := by
  have hfits := hg.fits
  have hh := hg.handler
  unfold next at hs
  rw [if_neg (by simp [hg.alive])] at hs
  split at hs
  on_goal 12 => cases hs
  all_goals
    rename_i hk
    rw [hk] at hfits hh
  · exact hg.threadCall hk hs
  · exact hg.handlerCall hk hs
  · -- `ThreadRoot` enables interrupts in a new thread
    next k =>
    cases hs
    obtain ⟨hb, hc⟩ := hh.calm (by simp) (by simp)
    refine ⟨hg.toRest.good_setLevel hfits.2 ?_ fun ht => ?_, fun e he => by cases he⟩
    · rw [hb]
      exact (calm_cons (by simp)).mp hc
    · rw [hb] at ht
      cases ht
  · next r entry k =>
    cases hs
    obtain ⟨hl, hf⟩ := hfits
    refine ⟨hg.toRest.good_goto ?_ ?_, fun e he => ?_⟩
    · rw [hl]
      exact hf
    · cases hb : σ.int.inHandler with
      | false =>
        rw [hb] at hh
        exact (calm_cons (by simp)).mp hh
      | true =>
        rw [hb] at hh
        obtain ⟨old, k', hc, hcons | ⟨_, hcons⟩⟩ := hh
        · cases hcons
        · cases hcons
          exact ⟨old, k', hc, .inl rfl⟩
    · cases List.mem_singleton.mp he
      exact hl
  · next s oldLevel entry k =>
    cases hs
    obtain ⟨hl, rfl, hf⟩ := hfits
    obtain ⟨hb, hc⟩ := hh.calm (by simp) (by simp)
    exact ⟨hg.toRest.good_testP hl hb hf ((calm_cons (by simp)).mp hc) s, fun e he => by cases he⟩
  · next oldLevel entry k =>
    cases hs
    obtain ⟨hl, rfl, hf⟩ := hfits
    obtain ⟨hb, hc⟩ := hh.calm (by simp) (by simp)
    have hcalm := (calm_cons (by simp)).mp hc
    refine ⟨hg.toRest.good_setLevel ⟨rfl, hf⟩ ?_ fun ht => ?_, fun e he => by cases he⟩
    · rw [hb]
      exact (calm_cons (by simp)).mpr hcalm
    · rw [hb] at ht
      cases ht
  · obtain ⟨hb, hc⟩ := hh.calm (by simp) (by simp)
    exact hg.toRest.good_sleepLoop hfits.1 hb hfits.2 ((calm_cons (by simp)).mp hc) hs
  · cases hs
    obtain ⟨hb, hc⟩ := hh.calm (by simp) (by simp)
    refine ⟨hg.toRest.good_goto ?_ ?_, fun e he => by cases he⟩
    · rw [hfits.1]
      exact hfits.2
    · rw [hb]
      exact (calm_cons (by simp)).mp hc
  · obtain ⟨hb, hc⟩ := hh.calm (by simp) (by simp)
    exact hg.toRest.good_tickLoop hfits.1 hb hfits.2 ((calm_cons (by simp)).mp hc) hs
  · next old k =>
    cases hs
    obtain ⟨hb, hc⟩ := hh.calm (by simp) (by simp)
    have hrest : Rest { σ with int := { σ.int with status := old } } := ⟨hg.alive, hg.others⟩
    refine ⟨hrest.good_goto ?_ ?_, fun e he => by cases he⟩
    · change Fits σ.int.level k
      rw [hfits.1]
      exact hfits.2
    · change InHandler σ.int.inHandler k
      rw [hb]
      exact (calm_cons (by simp)).mp hc
  · obtain ⟨hb, hc⟩ := hh.calm (by simp) (by simp)
    exact hg.toRest.good_idleLoop hfits.1 hb hfits.2 ((calm_cons (by simp)).mp hc) hs

omit [DecidableEq S] in
theorem good_boot (value : S → Int) (timer : Option (H × BitVec 32 × ℕ)) :
    Good (boot value timer) := by
  have hint : (boot value timer).int.level = .IntOff ∧
      (boot value timer).int.inHandler = false := by
    cases timer with
    | none => exact ⟨rfl, rfl⟩
    | some t =>
      obtain ⟨handler, arg, n⟩ := t
      simp only [boot]
      cases hs : Interrupt.boot.schedule handler arg n .TimerInt with
      | none => exact ⟨rfl, rfl⟩
      | some i => exact schedule_level hs
  have hroot : Calm ([.threadRoot] : List (Frame S)) := fun old hm => by simp at hm
  refine ⟨⟨rfl, fun t _ => ⟨⟨rfl, trivial⟩, hroot⟩⟩, ⟨hint.1, trivial⟩, ?_⟩
  rw [hint.2]
  exact hroot

/-- What the levels are for. -/
structure Disciplined (tr : List (LEvent H)) (σ : ThreadSystem S H) : Prop where
  run : ∀ t level inHandler, .run t level inHandler ∈ tr → level = .IntOff ∧ inHandler = false
  handler : ∀ p level, .handler p level ∈ tr → level = .IntOff
  inHandler : σ.int.inHandler = true → σ.int.level = .IntOff
  returned : ∀ t r entry level, .returned t r entry level ∈ tr → level = entry
  assertions : σ.aborted = false

end ThreadSystem

open ThreadSystem

variable {S H : Type} [DecidableEq S] {value : S → Int} {timer : Option (H × BitVec 32 × ℕ)}
  {tr : List (LEvent H)} {σ : ThreadSystem S H}

theorem good_run (hr : (threadSystem value timer).Run tr σ) : Good σ ∧ ∀ e ∈ tr, e.Ok := by
  refine hr.invariant (I := fun tr σ => Good σ ∧ ∀ e ∈ tr, e.Ok) (fun s hs => ?_)
    fun _ hi hst => ?_
  · cases hs
    exact ⟨good_boot value timer, fun e he => by cases he⟩
  · obtain ⟨c, hc⟩ := hst
    obtain ⟨hg, hok⟩ := good_step hi.1 hc
    refine ⟨hg, fun e he => ?_⟩
    rcases List.mem_append.mp he with he | he
    · exact hi.2 e he
    · exact hok e he

/-- From `Initialize` on, whatever the threads and the devices do: contexts are switched and
handlers run with interrupts off, no handler is switched out, `P`, `V`, `Yield` and `Fork` give
the level back, and no assertion fails. -/
theorem disciplined_run (hr : (threadSystem value timer).Run tr σ) : Disciplined tr σ := by
  obtain ⟨hg, hok⟩ := good_run hr
  refine ⟨fun t l b hm => hok _ hm, fun p l hm => hok _ hm, fun hin => ?_,
    fun t r e l hm => hok _ hm, hg.alive⟩
  have hh := hg.handler
  have hfits := hg.fits
  rw [hin] at hh
  obtain ⟨old, k, -, hk | ⟨entry, hk⟩⟩ := hh
  · rw [hk] at hfits
    exact hfits.1
  · rw [hk] at hfits
    exact hfits.1.trans hfits.2.1

/-- The timer expires while the main thread enables interrupts, which then yields in vain, forks
a thread and gives the processor to it. -/
theorem disciplined_timer : ∃ tr σ, (threadSystem (fun _ : Unit => 0) (some ((), 0, 5))).Run tr σ ∧
    Disciplined tr σ ∧ .handler ⟨0, (), 0, 5, .TimerInt⟩ .IntOff ∈ tr ∧
    .returned 0 .Yield .IntOn .IntOn ∈ tr ∧ .returned 0 .Fork .IntOn .IntOn ∈ tr ∧
    .run 1 .IntOff false ∈ tr := by
  obtain ⟨tr, σ, hr, _, hp⟩ := System.exists_run_of_exec
    (boot (fun _ : Unit => 0) (some ((), 0, 5))) next
    [none, none, some .yieldOnReturn, some .handlerReturn, none, none, none, none,
      some .fork, none, none, some .yield, none]
    (fun r => decide (.handler ⟨0, (), 0, 5, .TimerInt⟩ .IntOff ∈ r.2 ∧
      .returned 0 .Yield .IntOn .IntOn ∈ r.2 ∧ .returned 0 .Fork .IntOn .IntOn ∈ r.2 ∧
      .run 1 .IntOff false ∈ r.2)) (by decide +kernel)
  have hp := of_decide_eq_true hp
  exact ⟨tr, σ, hr, disciplined_run hr, hp.1, hp.2.1, hp.2.2.1, hp.2.2.2⟩

end Nachos
