import Nachos.Lib.Concurrent
import Nachos.Lib.Coroutine
import Nachos.Lib.I386

/-!
# Context switches on the host

`SWITCH` and `ThreadRoot` of `switch.s` for the i386, and `Thread::StackAllocate` (`thread.cc`),
which sets up a thread so that the first `SWITCH` to it begins in `ThreadRoot`. What the threads
do between two calls of `SWITCH` is left open; they leave each other's stacks and saved registers
alone.
-/
namespace Nachos

open Concurrent Coroutine I386

/-- Where the linker has put what the assembly code refers to. -/
structure Symbols where
  /-- The addresses of the instructions, of which the first is that of the label. -/
  SWITCH : ℕ → Addr
  ThreadRoot : ℕ → Addr
  InterruptEnable : Addr
  ThreadFinish : Addr
  eax_save : Addr

/-- The offsets of the registers from the beginning of the thread object (`switch.h`). -/
def regOffset : Reg → Addr
  | .esp => 0
  | .eax => 4
  | .ebx => 8
  | .ecx => 12
  | .edx => 16
  | .ebp => 20
  | .esi => 24
  | .edi => 28

def pcOffset : Addr := 32

/-- The place of `machineState[i]`, which follows `stackTop`. -/
def machineState (i : Addr) : Addr := 4 + 4 * i

def PCState : Addr := pcOffset / 4 - 1
def InitialPCState : Addr := regOffset .esi / 4 - 1
def InitialArgState : Addr := regOffset .edx / 4 - 1
def WhenDonePCState : Addr := regOffset .edi / 4 - 1
def StartupPCState : Addr := regOffset .ecx / 4 - 1

/-- In words. -/
def StackSize : ℕ := 4 * 16384

def STACK_FENCEPOST : BitVec 32 := 0xdeadbeef

/-! ## The assembly code -/

/-- A move between a register and its place in the thread object that `eax` points to. -/
def saveReg (r : Reg) : Instr := .movl (.reg r) (.based (regOffset r) .eax)
def restoreReg (r : Reg) : Instr := .movl (.based (regOffset r) .eax) (.reg r)

/-- `SWITCH`, up to where `eax` points to `t2`: the registers are saved. -/
def SWITCH_save (v : Symbols) : List Instr :=
  [.movl (.reg .eax) (.absolute v.eax_save),
    .movl (.based 4 .esp) (.reg .eax),
    saveReg .ebx, saveReg .ecx, saveReg .edx, saveReg .esi, saveReg .edi, saveReg .ebp,
    saveReg .esp,
    .movl (.absolute v.eax_save) (.reg .ebx),
    .movl (.reg .ebx) (.based (regOffset .eax) .eax),
    .movl (.based 0 .esp) (.reg .ebx),
    .movl (.reg .ebx) (.based pcOffset .eax)]

/-- The rest of `SWITCH`. -/
def SWITCH_restore (v : Symbols) : List Instr :=
  [.movl (.based 8 .esp) (.reg .eax),
    .movl (.based (regOffset .eax) .eax) (.reg .ebx),
    .movl (.reg .ebx) (.absolute v.eax_save),
    restoreReg .ebx, restoreReg .ecx, restoreReg .edx, restoreReg .esi, restoreReg .edi,
    restoreReg .ebp, restoreReg .esp,
    .movl (.based pcOffset .eax) (.reg .eax),
    .movl (.reg .eax) (.based 4 .esp),
    .movl (.absolute v.eax_save) (.reg .eax),
    .ret]

def SWITCH (v : Symbols) : List Instr := SWITCH_save v ++ SWITCH_restore v

/-- `InitialArg` is `edx`, `StartupPC` is `ecx`, `InitialPC` is `esi` and `WhenDonePC` is `edi`. -/
def ThreadRoot : List Instr :=
  [.pushl .ebp,
    .movl (.reg .esp) (.reg .ebp),
    .pushl .edx,
    .call .ecx,
    .call .esi,
    .call .edi,
    .movl (.reg .ebp) (.reg .esp),
    .popl .ebp,
    .ret]

/-! ## Threads -/

/-- Where a thread is in memory: its object, and the stack it runs on. -/
structure Place where
  object : Addr
  stack : Stretch

namespace Place

/-- `stackTop` and as much of `machineState` as is used. -/
def saved (p : Place) : Stretch := ⟨p.object, 36⟩

def Has (p : Place) (x : Addr) : Prop := p.saved.Has x ∨ p.stack.Has x

def Apart (p q : Place) : Prop := ∀ x, p.Has x → ¬q.Has x

/-- The parts of one thread do not overlap, and `SWITCH` has its variable elsewhere. -/
structure Sound (v : Symbols) (p : Place) : Prop where
  size : p.stack.size ≤ 2 ^ 32
  stack : p.saved.Apart p.stack
  saved_eax : p.saved.Apart (word v.eax_save)
  stack_eax : p.stack.Apart (word v.eax_save)

end Place

/-- What `StackAllocate` puts into `machineState`. -/
def startState (v : Symbols) (func arg : Addr) : List (Addr × BitVec 32) :=
  [(machineState PCState, v.ThreadRoot 0), (machineState StartupPCState, v.InterruptEnable),
    (machineState InitialPCState, func), (machineState InitialArgState, arg),
    (machineState WhenDonePCState, v.ThreadFinish)]

/-- `StackAllocate(func, arg)` for the object `object`, when `AllocBoundedArray` has found room at
`stack`. -/
def stackAllocate (v : Symbols) (object stack func arg : Addr) (m : Memory) : Memory :=
  let stackTop := stack + BitVec.ofNat 32 (4 * (StackSize - 4)) - 4
  let m := store m (object + regOffset .esp) stackTop
  let m := stores m [(stackTop, v.ThreadRoot 0), (stack, STACK_FENCEPOST)]
  stores m (words object (startState v func arg))

/-- Where a thread is to go on, and its stack. -/
structure Continuation where
  cpu : Cpu
  stack : Stretch

/-- Where a forked thread begins. What `StackAllocate` does not set is what it was in the
object. -/
def Place.begin (v : Symbols) (p : Place) (func arg : Addr) (m : Memory) : Continuation where
  cpu :=
    { reg := fun r =>
        match r with
        | .ecx => v.InterruptEnable
        | .edx => arg
        | .esi => func
        | .edi => v.ThreadFinish
        | .esp => p.stack.start + BitVec.ofNat 32 (4 * (StackSize - 4))
        | r => load m (p.object + regOffset r)
      eip := v.ThreadRoot 0
      mem := stackAllocate v p.object p.stack.start func arg m }
  stack := p.stack

/-- The thread goes on as if nothing had happened. The place of its argument on the stack belongs
to `SWITCH`. -/
structure Continuation.Same (c d : Continuation) : Prop where
  reg : d.cpu.reg = c.cpu.reg
  eip : d.cpu.eip = c.cpu.eip
  stack : d.stack = c.stack
  mem : ∀ x, c.stack.Has x → ¬(word (c.cpu.reg .esp)).Has x → d.cpu.mem x = c.cpu.mem x

structure HostThreads where
  cpu : Cpu
  currentThread : Tid
  threads : Tid → Option Place

namespace HostThreads

/-- What the running thread leaves alone. -/
def Keeps (σ : HostThreads) (m : Memory) : Prop :=
  ∀ t p x, t ≠ σ.currentThread → σ.threads t = some p → p.Has x → m x = σ.cpu.mem x

inductive Step (v : Symbols) : HostThreads → List (Turn Tid Continuation) → HostThreads → Prop
  /-- The running thread does anything but switch. -/
  | compute {σ : HostThreads} {c : Cpu} (hm : σ.Keeps c.mem) : Step v σ [] { σ with cpu := c }
  /-- `Fork`: the allocator finds room for the object and its stack. -/
  | fork {σ : HostThreads} {t : Tid} {p : Place} {func arg : Addr} (ht : σ.threads t = none)
      (hp : p.Sound v) (hsize : p.stack.size = 4 * StackSize)
      (hfree : ∀ u q, σ.threads u = some q → p.Apart q) :
      Step v σ [.start t (p.begin v func arg σ.cpu.mem)]
        { σ with
          cpu :=
            { σ.cpu with mem := stackAllocate v p.object p.stack.start func arg σ.cpu.mem }
          threads := Function.update σ.threads t (some p) }
  /-- `~Thread`, for another thread. -/
  | delete {σ : HostThreads} {t : Tid} (ht : t ≠ σ.currentThread) :
      Step v σ [.gone t] { σ with threads := Function.update σ.threads t none }
  /-- `SWITCH(t1, t2)`, with the arguments on the stack. -/
  | switch {σ : HostThreads} {t : Tid} {p q : Place} (hp : σ.threads σ.currentThread = some p)
      (hq : σ.threads t = some q) (hpc : σ.cpu.eip = v.SWITCH 0)
      (hframe : ∀ x, (⟨σ.cpu.reg .esp, 12⟩ : Stretch).Has x → p.stack.Has x)
      (h1 : load σ.cpu.mem (σ.cpu.reg .esp + 4) = p.object)
      (h2 : load σ.cpu.mem (σ.cpu.reg .esp + 8) = q.object) :
      Step v σ
        [.leave σ.currentThread ⟨σ.cpu.ret, p.stack⟩,
          .enter t ⟨σ.cpu.run v.SWITCH 0 (SWITCH v), q.stack⟩]
        { σ with cpu := σ.cpu.run v.SWITCH 0 (SWITCH v), currentThread := t }

end HostThreads

/-- A machine on which the main thread runs. -/
def hostThreads (v : Symbols) : System HostThreads (Turn Tid Continuation) where
  init σ := ∃ p : Place, p.Sound v ∧
    σ.threads = Function.update (fun _ => none) σ.currentThread (some p)
  step := HostThreads.Step v

/-! ## What SWITCH does -/

variable {v : Symbols} {place : ℕ → Addr} {c d : Cpu} {p q : Place} {m : Memory} {x : Addr}

theorem run_saveRegs (place : ℕ → Addr) (rs : List Reg) (k : ℕ) (c : Cpu) :
    (c.run place k (rs.map saveReg)).reg = c.reg ∧
      (c.run place k (rs.map saveReg)).mem =
        stores c.mem (words (c.reg .eax) (rs.map fun r => (regOffset r, c.reg r))) := by
  induction rs generalizing k c with
  | nil => exact ⟨rfl, rfl⟩
  | cons r rs ih => exact ih (k + 1) (Cpu.exec (place (k + 1)) (saveReg r) c)

theorem run_restoreRegs (place : ℕ → Addr) (rs : List Reg) (h : .eax ∉ rs) (k : ℕ) (c : Cpu) :
    (c.run place k (rs.map restoreReg)).mem = c.mem ∧
      ∀ r, (c.run place k (rs.map restoreReg)).reg r =
        if r ∈ rs then load c.mem (c.reg .eax + regOffset r) else c.reg r := by
  induction rs generalizing k c with
  | nil => exact ⟨rfl, fun r => rfl⟩
  | cons s rs ih =>
    obtain ⟨hs, hrs⟩ := not_or.mp (List.mem_cons.not.mp h)
    obtain ⟨hmem, hreg⟩ := ih hrs (k + 1) (Cpu.exec (place (k + 1)) (restoreReg s) c)
    refine ⟨hmem, fun r => ?_⟩
    have heax : (Cpu.exec (place (k + 1)) (restoreReg s) c).reg .eax = c.reg .eax :=
      Function.update_of_ne hs _ _
    rw [List.map_cons, Cpu.run, hreg, heax]
    by_cases hr : r ∈ rs
    · rw [if_pos hr, if_pos (List.mem_cons_of_mem s hr)]
      rfl
    rw [if_neg hr]
    by_cases hrs : r = s
    · subst hrs
      rw [if_pos List.mem_cons_self]
      exact Function.update_self ..
    · rw [if_neg (by simp [hr, hrs])]
      exact Function.update_of_ne hrs _ _

/-- The registers as `SWITCH` puts them into the object. -/
def savedRegs (c : Cpu) : List (Addr × BitVec 32) :=
  ([.ebx, .ecx, .edx, .esi, .edi, .ebp, .esp, .eax].map fun r => (regOffset r, c.reg r)) ++
    [(pcOffset, load c.mem (c.reg .esp))]

theorem mem_savedRegs (c : Cpu) (r : Reg) : (regOffset r, c.reg r) ∈ savedRegs c :=
  List.mem_append_left _ (List.mem_map_of_mem (by cases r <;> decide))

/-- The memory when they are saved. -/
def savedMemory (v : Symbols) (p : Place) (c : Cpu) : Memory :=
  stores (store c.mem v.eax_save (c.reg .eax)) (words p.object (savedRegs c))

theorem Place.saved_of_word {i : Addr} (hi : i.toNat ≤ 32) (h : (word (p.object + i)).Has x) :
    p.saved.Has x :=
  has_of_word (s := p.saved) (show i.toNat + 4 ≤ 36 by omega) (show 36 ≤ 2 ^ 32 by decide) h

/-- A call of `SWITCH` by the thread at `p`. -/
structure Called (v : Symbols) (p : Place) (c : Cpu) : Prop where
  sound : p.Sound v
  frame : ∀ x, (⟨c.reg .esp, 12⟩ : Stretch).Has x → p.stack.Has x
  object : load c.mem (c.reg .esp + 4) = p.object

theorem Place.Sound.not_eax (h : p.Sound v) (hx : p.Has x) : ¬(word v.eax_save).Has x := by
  rcases hx with hx | hx
  · exact h.saved_eax x hx
  · exact h.stack_eax x hx

namespace Called

theorem of_word (h : Called v p c) {i : Addr} (hi : i.toNat ≤ 8)
    (hx : (word (c.reg .esp + i)).Has x) : p.stack.Has x :=
  h.frame x (has_of_word (s := ⟨c.reg .esp, 12⟩) (show i.toNat + 4 ≤ 12 by omega)
    (show 12 ≤ 2 ^ 32 by decide) hx)

theorem apart_saved (h : Called v p c) {i j : Addr} (hi : i.toNat ≤ 8) (hj : j.toNat ≤ 32) :
    (word (c.reg .esp + i)).Apart (word (p.object + j)) :=
  fun x hx hx' => h.sound.stack x (Place.saved_of_word hj hx') (h.of_word hi hx)

theorem apart_eax (h : Called v p c) {i : Addr} (hi : i.toNat ≤ 8) :
    (word (c.reg .esp + i)).Apart (word v.eax_save) :=
  fun x hx => h.sound.stack_eax x (h.of_word hi hx)

end Called

theorem Place.Sound.eax_apart (h : p.Sound v) {i : Addr} (hi : i.toNat ≤ 32) :
    (word v.eax_save).Apart (word (p.object + i)) :=
  fun x hx hx' => h.saved_eax x (Place.saved_of_word hi hx') hx

theorem regOffset_le (r : Reg) : (regOffset r).toNat ≤ 32 := by
  cases r <;> decide

theorem words_offsets {l : List (Addr × BitVec 32)} {o : Addr} {w : Addr × BitVec 32}
    (hw : w ∈ words o l) (hl : ∀ i ∈ l.map Prod.fst, i.toNat ≤ 32) :
    ∃ i : Addr, i.toNat ≤ 32 ∧ w.1 = o + i := by
  obtain ⟨r, hr, rfl⟩ := List.mem_map.mp hw
  exact ⟨r.1, hl r.1 (List.mem_map_of_mem hr), rfl⟩

/-- The first half saves the registers of the caller. -/
theorem Called.run_save (h : Called v p c) (place : ℕ → Addr) (k : ℕ) :
    (c.run place k (SWITCH_save v)).reg =
        Function.update (Function.update c.reg .eax p.object) .ebx (load c.mem (c.reg .esp)) ∧
      (c.run place k (SWITCH_save v)).mem = savedMemory v p c := by
  have hsplit : SWITCH_save v =
      [.movl (.reg .eax) (.absolute v.eax_save), .movl (.based 4 .esp) (.reg .eax)] ++
        ([.ebx, .ecx, .edx, .esi, .edi, .ebp, .esp].map saveReg ++
          [.movl (.absolute v.eax_save) (.reg .ebx),
            .movl (.reg .ebx) (.based (regOffset .eax) .eax),
            .movl (.based 0 .esp) (.reg .ebx),
            .movl (.reg .ebx) (.based pcOffset .eax)]) := rfl
  rw [hsplit, Cpu.run_append, Cpu.run_append]
  -- `eax` points to the object
  generalize hc₁ : c.run place k [.movl (.reg .eax) (.absolute v.eax_save),
    .movl (.based 4 .esp) (.reg .eax)] = c₁
  have hreg₁ : c₁.reg = Function.update c.reg .eax p.object := by
    rw [← hc₁, ← h.object, ← load_store_apart (h.apart_eax (i := 4) (by decide))]
    rfl
  have hmem₁ : c₁.mem = store c.mem v.eax_save (c.reg .eax) := by
    rw [← hc₁]
    rfl
  generalize k + _ = k₁
  obtain ⟨hreg₂, hmem₂⟩ := run_saveRegs place
    [.ebx, .ecx, .edx, .esi, .edi, .ebp, .esp] k₁ c₁
  generalize c₁.run place k₁ _ = c₂ at hreg₂ hmem₂ ⊢
  have hsaved : c₂.mem = stores (store c.mem v.eax_save (c.reg .eax)) (words p.object
      ([Reg.ebx, .ecx, .edx, .esi, .edi, .ebp, .esp].map fun r => (regOffset r, c.reg r))) := by
    rw [hmem₂, hmem₁, hreg₁]
    rfl
  have hwords : ∀ w ∈ words p.object
      ([Reg.ebx, .ecx, .edx, .esi, .edi, .ebp, .esp].map fun r => (regOffset r, c.reg r)),
      ∃ i : Addr, i.toNat ≤ 32 ∧ w.1 = p.object + i := by
    refine fun w hw => words_offsets hw fun i hi => ?_
    rw [List.map_map] at hi
    obtain ⟨r, -, rfl⟩ := List.mem_map.mp hi
    exact regOffset_le r
  have hold : load c₂.mem v.eax_save = c.reg .eax := by
    rw [hsaved, load_stores_apart, load_store]
    intro w hw
    obtain ⟨i, hi, hwi⟩ := hwords w hw
    rw [hwi]
    exact h.sound.eax_apart hi
  have hret : load (store c₂.mem (p.object + regOffset .eax) (c.reg .eax)) (c.reg .esp + 0) =
      load c.mem (c.reg .esp) := by
    rw [load_store_apart (h.apart_saved (by decide) (by decide)), hsaved, load_stores_apart,
      load_store_apart (h.apart_eax (by decide))]
    · exact congrArg (load c.mem) (BitVec.add_zero _)
    intro w hw
    obtain ⟨i, hi, hwi⟩ := hwords w hw
    rw [hwi]
    exact h.apart_saved (by decide) hi
  simp only [Cpu.run, Cpu.exec, Cpu.write, Cpu.read, Cpu.setReg, Cpu.setMem, Cpu.jump, hold, hreg₂,
    hreg₁, Function.update_self, Function.update_of_ne, ne_eq, reduceCtorEq, not_false_eq_true,
    hret, Function.update_idem, true_and]
  rw [hsaved]
  rfl

/-- What is in memory of a thread that is to go on at `c`. -/
structure SwitchedOut (m : Memory) (p : Place) (c : Cpu) : Prop where
  esp : load m (p.object + regOffset .esp) = c.reg .esp - 4
  reg : ∀ r ≠ .esp, load m (p.object + regOffset r) = c.reg r
  pc : load m (p.object + pcOffset) = c.eip
  ret : load m (c.reg .esp - 4) = c.eip
  frame : ∀ x, (⟨c.reg .esp - 4, 8⟩ : Stretch).Has x → p.stack.Has x
  mem : ∀ x, p.stack.Has x → m x = c.mem x

namespace SwitchedOut

theorem congr {m' : Memory} (h : SwitchedOut m p c) (hm : ∀ x, p.Has x → m' x = m x) :
    SwitchedOut m' p c := by
  have hword : ∀ i : Addr, i.toNat ≤ 32 → load m' (p.object + i) = load m (p.object + i) :=
    fun i hi => load_congr fun x hx => hm x (.inl (Place.saved_of_word hi hx))
  constructor
  · rw [hword _ (regOffset_le .esp), h.esp]
  · intro r hr
    rw [hword _ (regOffset_le r), h.reg r hr]
  · rw [hword _ (by decide), h.pc]
  · rw [← h.ret]
    refine load_congr fun x hx => hm x (.inr (h.frame x ?_))
    exact Nat.lt_trans hx (show 4 < 8 by decide)
  · exact h.frame
  · intro x hx
    rw [hm x (.inr hx), h.mem x hx]

/-- The place of the first argument of `SWITCH`. -/
theorem slot (h : SwitchedOut m p c) (hx : (word (c.reg .esp)).Has x) : p.stack.Has x := by
  refine h.frame x ?_
  simp only [word, Stretch.Has] at hx ⊢
  bv_omega

end SwitchedOut

/-- The second half goes on where the other thread is to. -/
theorem SwitchedOut.run_restore {c : Cpu} (h : SwitchedOut c.mem q d) (hq : q.Sound v) (k : ℕ)
    (hobject : load c.mem (c.reg .esp + 8) = q.object) :
    (c.run place k (SWITCH_restore v)) =
      { d with mem := store (store c.mem v.eax_save (d.reg .eax)) (d.reg .esp) d.eip } := by
  have hsplit : SWITCH_restore v =
      [.movl (.based 8 .esp) (.reg .eax), .movl (.based (regOffset .eax) .eax) (.reg .ebx),
        .movl (.reg .ebx) (.absolute v.eax_save)] ++
        ([.ebx, .ecx, .edx, .esi, .edi, .ebp, .esp].map restoreReg ++
          [.movl (.based pcOffset .eax) (.reg .eax), .movl (.reg .eax) (.based 4 .esp),
            .movl (.absolute v.eax_save) (.reg .eax), .ret]) := rfl
  rw [hsplit, Cpu.run_append, Cpu.run_append]
  generalize hc₁ : c.run place k [.movl (.based 8 .esp) (.reg .eax),
    .movl (.based (regOffset .eax) .eax) (.reg .ebx),
    .movl (.reg .ebx) (.absolute v.eax_save)] = c₁
  have heax₁ : c₁.reg .eax = q.object := by
    rw [← hc₁, ← hobject]
    rfl
  have hmem₁ : c₁.mem = store c.mem v.eax_save (d.reg .eax) := by
    rw [← hc₁, ← h.reg .eax (by decide), ← hobject]
    rfl
  generalize k + _ = k₁
  obtain ⟨hmem₂, hreg₂⟩ := run_restoreRegs place
    [.ebx, .ecx, .edx, .esi, .edi, .ebp, .esp] (by decide) k₁ c₁
  generalize c₁.run place k₁ _ = c₂ at hreg₂ hmem₂ ⊢
  -- the object is not where the variable of `SWITCH` is
  have hword : ∀ i : Addr, i.toNat ≤ 32 →
      load (store c.mem v.eax_save (d.reg .eax)) (q.object + i) = load c.mem (q.object + i) :=
    fun i hi => load_store_apart (hq.eax_apart hi).symm
  have hesp : c₂.reg .esp = d.reg .esp - 4 := by
    rw [hreg₂, if_pos (by decide), heax₁, hmem₁, hword _ (regOffset_le .esp), h.esp]
  have hother : ∀ r ≠ Reg.esp, r ≠ Reg.eax → c₂.reg r = d.reg r := by
    intro r hr hr'
    rw [hreg₂, if_pos (by cases r <;> simp_all), heax₁, hmem₁, hword _ (regOffset_le r), h.reg r hr]
  have heax₂ : c₂.reg .eax = q.object := by
    rw [hreg₂, if_neg (by decide), heax₁]
  rw [hmem₁] at hmem₂
  have hpc : load (store c.mem v.eax_save (d.reg .eax)) (q.object + pcOffset) = d.eip := by
    rw [hword _ (by decide), h.pc]
  have htop : d.reg .esp - 4 + 4 = d.reg .esp := BitVec.sub_add_cancel ..
  generalize hm : store (store c.mem v.eax_save (d.reg .eax)) (d.reg .esp) d.eip = m'
  have hold : load m' v.eax_save = d.reg .eax := by
    rw [← hm, load_store_apart, load_store]
    exact fun x hx hx' => hq.stack_eax x (h.slot hx') hx
  have hret : load m' (d.reg .esp - 4) = d.eip := by
    rw [← hm, load_store_apart, load_store_apart, h.ret]
    · exact fun x hx => hq.stack_eax x (h.frame x (Nat.lt_trans hx (show 4 < 8 by decide)))
    · intro x hx hx'
      simp only [word, Stretch.Has] at hx hx'
      bv_omega
  simp only [Cpu.run, Cpu.exec, Cpu.write, Cpu.read, Cpu.setReg, Cpu.setMem, Cpu.jump, Cpu.ret,
    Function.update_self, Function.update_of_ne, ne_eq, reduceCtorEq, not_false_eq_true,
    Function.update_idem, heax₂, hpc, hesp, htop, hmem₂, hm, hold, hret]
  congr 1
  funext r
  by_cases hr : r = .esp
  · rw [hr, Function.update_self]
  rw [Function.update_of_ne hr]
  by_cases hr' : r = .eax
  · rw [hr', Function.update_self]
  rw [Function.update_of_ne hr', hother r hr hr']

theorem savedRegs_le : ∀ i ∈ (savedRegs c).map Prod.fst, i.toNat ≤ 32 := by
  simp [savedRegs, regOffset, pcOffset]

/-- What the first half writes to. -/
theorem savedMemory_of_not (hs : ¬p.saved.Has x) (hx : ¬(word v.eax_save).Has x) :
    savedMemory v p c x = c.mem x := by
  rw [savedMemory, stores_of_not_has, store_of_not_has hx]
  intro w hw hwx
  obtain ⟨i, hi, hwi⟩ := words_offsets hw savedRegs_le
  rw [hwi] at hwx
  exact hs (Place.saved_of_word hi hwx)

theorem Called.savedMemory_stack (h : Called v p c) (hx : p.stack.Has x) :
    savedMemory v p c x = c.mem x :=
  savedMemory_of_not (fun hs => h.sound.stack x hs hx) (h.sound.stack_eax x hx)

/-- The caller is to go on where `SWITCH` returns to. -/
theorem Called.saved (h : Called v p c) : SwitchedOut (savedMemory v p c) p c.ret := by
  have hpair : ((savedRegs c).map Prod.fst).Pairwise
      fun i j => 4 ≤ (i - j).toNat ∧ 4 ≤ (j - i).toNat := by
    show List.Pairwise _ [regOffset .ebx, regOffset .ecx, regOffset .edx, regOffset .esi,
      regOffset .edi, regOffset .ebp, regOffset .esp, regOffset .eax, pcOffset]
    decide
  have htop : c.ret.reg .esp - 4 = c.reg .esp := by rw [c.ret_esp, BitVec.add_sub_cancel]
  constructor
  · rw [htop]
    exact load_words hpair (mem_savedRegs c .esp)
  · intro r hr
    rw [c.ret_reg hr]
    exact load_words hpair (mem_savedRegs c r)
  · exact load_words hpair (List.mem_append_right _ List.mem_cons_self)
  · rw [htop]
    refine load_congr fun x hx => h.savedMemory_stack (h.frame x ?_)
    exact Nat.lt_trans hx (show 4 < 12 by decide)
  · intro x hx
    rw [htop] at hx
    exact h.frame x (Nat.lt_trans hx (show 8 < 12 by decide))
  · exact fun x hx => h.savedMemory_stack hx

/-- `SWITCH` goes on with the thread at `q`, where that is to go on. -/
theorem Called.run_SWITCH (h : Called v p c) (hq : q.Sound v)
    (hobject : load c.mem (c.reg .esp + 8) = q.object) (hd : SwitchedOut (savedMemory v p c) q d) :
    c.run v.SWITCH 0 (SWITCH v) =
      { d with
        mem := store (store (savedMemory v p c) v.eax_save (d.reg .eax)) (d.reg .esp) d.eip } := by
  obtain ⟨hreg, hmem⟩ := h.run_save v.SWITCH 0
  rw [SWITCH, Cpu.run_append]
  generalize c.run v.SWITCH 0 (SWITCH_save v) = c₁ at hreg hmem ⊢
  rw [← hmem] at hd ⊢
  refine hd.run_restore hq _ ?_
  rw [hmem, hreg]
  simp only [Function.update_of_ne, ne_eq, reduceCtorEq, not_false_eq_true]
  rw [← hobject]
  exact load_congr fun x hx => h.savedMemory_stack (h.of_word (by decide) hx)

/-! ## A new thread -/

section

variable {func arg : Addr}

/-- The stack of a new thread has room for the return address at `stackTop`. -/
theorem Place.stackTop_has (hsize : p.stack.size = 4 * StackSize) {n : ℕ} (hn : n ≤ 8)
    (hx : (⟨p.stack.start + BitVec.ofNat 32 (4 * (StackSize - 4)) - 4, n⟩ : Stretch).Has x) :
    p.stack.Has x := by
  simp only [Stretch.Has, StackSize] at hx hsize ⊢
  rw [hsize]
  bv_omega

theorem Place.fencepost_has (hsize : p.stack.size = 4 * StackSize)
    (hx : (word p.stack.start).Has x) : p.stack.Has x := by
  simp only [word, Stretch.Has, StackSize] at hx hsize ⊢
  omega

theorem startState_places : (startState v func arg).map Prod.fst = [32, 12, 24, 16, 28] := by
  rfl

theorem startState_le : ∀ i ∈ (startState v func arg).map Prod.fst, i.toNat ≤ 32 := by
  rw [startState_places]
  simp

theorem startState_apart : ((startState v func arg).map Prod.fst).Pairwise
    fun i j => 4 ≤ (i - j).toNat ∧ 4 ≤ (j - i).toNat := by
  rw [startState_places]
  decide

/-- The registers that are not set are elsewhere. -/
theorem startState_other : ∀ r ∈ [Reg.esp, .eax, .ebx, .ebp],
    ∀ j ∈ (startState v func arg).map Prod.fst,
      4 ≤ (regOffset r - j).toNat ∧ 4 ≤ (j - regOffset r).toNat := by
  rw [startState_places]
  simp [regOffset]

theorem stackAllocate_of_not (hsize : p.stack.size = 4 * StackSize) (hx : ¬p.Has x) :
    stackAllocate v p.object p.stack.start func arg m x = m x := by
  obtain ⟨hsaved, hstack⟩ := not_or.mp hx
  rw [stackAllocate, stores_of_not_has, stores_of_not_has, store_of_not_has]
  · exact fun h => hsaved (Place.saved_of_word (regOffset_le .esp) h)
  · simp only [List.forall_mem_cons, List.not_mem_nil, false_imp_iff, implies_true, and_true]
    exact ⟨fun h => hstack (Place.stackTop_has hsize (n := 4) (by decide) h),
      fun h => hstack (Place.fencepost_has hsize h)⟩
  · intro w hw hwx
    obtain ⟨i, hi, hwi⟩ := words_offsets hw startState_le
    rw [hwi] at hwx
    exact hsaved (Place.saved_of_word hi hwx)

/-- What is in the object is what the assembly code expects there. -/
theorem saved_begin (hp : p.Sound v) (hsize : p.stack.size = 4 * StackSize) :
    SwitchedOut (stackAllocate v p.object p.stack.start func arg m) p
      (p.begin v func arg m).cpu := by
  have hapart : ∀ i : Addr, i.toNat ≤ 32 → ∀ a, (∀ x, (word a).Has x → p.stack.Has x) →
      (word (p.object + i)).Apart (word a) :=
    fun i hi a ha x hx hx' => hp.stack x (Place.saved_of_word hi hx) (ha x hx')
  have htop := fun x => Place.stackTop_has (p := p) (x := x) hsize (n := 4) (by decide)
  have hfence := fun x => Place.fencepost_has (p := p) (x := x) hsize
  -- the words on the stack are not in the object
  have hunset : ∀ r ∈ [Reg.esp, .eax, .ebx, .ebp],
      load (stackAllocate v p.object p.stack.start func arg m) (p.object + regOffset r) =
        load (store m (p.object + regOffset .esp)
            (p.stack.start + BitVec.ofNat 32 (4 * (StackSize - 4)) - 4))
          (p.object + regOffset r) := by
    intro r hr
    rw [stackAllocate, load_words_other (startState_other r hr), load_stores_apart]
    simp only [List.forall_mem_cons, List.not_mem_nil, false_imp_iff, implies_true, and_true]
    exact ⟨hapart _ (regOffset_le r) _ htop, hapart _ (regOffset_le r) _ hfence⟩
  have hset : ∀ {i : Addr} {w}, (i, w) ∈ startState v func arg →
      load (stackAllocate v p.object p.stack.start func arg m) (p.object + i) = w := by
    intro i w hw
    rw [stackAllocate, load_words startState_apart hw]
  constructor
  · rw [hunset .esp (by decide), load_store]
    rfl
  · have hleft : ∀ r ∈ [Reg.eax, .ebx, .ebp],
        load (stackAllocate v p.object p.stack.start func arg m) (p.object + regOffset r) =
          load m (p.object + regOffset r) := by
      intro r hr
      rw [hunset r (List.mem_cons_of_mem _ hr), load_store_apart]
      refine word_apart ?_
      revert r
      decide
    intro r hr
    cases r with
    | esp => exact absurd rfl hr
    | eax => exact hleft .eax (by decide)
    | ebx => exact hleft .ebx (by decide)
    | ebp => exact hleft .ebp (by decide)
    | ecx => exact hset (i := regOffset .ecx) (.tail _ (.head _))
    | edx => exact hset (i := regOffset .edx) (.tail _ (.tail _ (.tail _ (.head _))))
    | esi => exact hset (i := regOffset .esi) (.tail _ (.tail _ (.head _)))
    | edi => exact hset (i := regOffset .edi) (.tail _ (.tail _ (.tail _ (.tail _ (.head _)))))
  · exact hset (i := pcOffset) (.head _)
  · show load (stackAllocate v p.object p.stack.start func arg m)
      (p.stack.start + BitVec.ofNat 32 (4 * (StackSize - 4)) - 4) = v.ThreadRoot 0
    rw [stackAllocate, load_stores_apart, stores, List.foldl_cons, List.foldl_cons, List.foldl_nil,
      load_store_apart, load_store]
    · intro x hx hx'
      simp only [word, Stretch.Has, StackSize] at hx hx'
      bv_omega
    · intro w hw x hx hx'
      obtain ⟨i, hi, hwi⟩ := words_offsets hw startState_le
      rw [hwi] at hx'
      exact hp.stack x (Place.saved_of_word hi hx') (htop x hx)
  · exact fun x hx => Place.stackTop_has hsize le_rfl hx
  · exact fun x hx => rfl

end

/-! ## Every run -/

variable {σ τ : HostThreads} {tr es : List (Turn Tid Continuation)} {t u : Tid} {k : Continuation}

theorem update_some {α : Type*} {f : Tid → Option α} {a b : α}
    (h : Function.update f t (some a) u = some b) : (u = t ∧ b = a) ∨ (u ≠ t ∧ f u = some b) := by
  by_cases hu : u = t
  · subst hu
    rw [Function.update_self] at h
    exact .inl ⟨rfl, (Option.some.inj h).symm⟩
  · rw [Function.update_of_ne hu] at h
    exact .inr ⟨hu, h⟩

theorem update_none {α : Type*} {f : Tid → Option α} {b : α}
    (h : Function.update f t none u = some b) : u ≠ t ∧ f u = some b := by
  have hu : u ≠ t := by
    rintro rfl
    rw [Function.update_self] at h
    cases h
  rw [Function.update_of_ne hu] at h
  exact ⟨hu, h⟩

/-- Threads have their own memory, and all but the running one are to go on somewhere. -/
structure Settled (v : Symbols) (tr : List (Turn Tid Continuation)) (σ : HostThreads) : Prop where
  current : ∃ p, σ.threads σ.currentThread = some p
  sound : ∀ t p, σ.threads t = some p → p.Sound v
  apart : ∀ t u p q, t ≠ u → σ.threads t = some p → σ.threads u = some q → p.Apart q
  running : waiting tr σ.currentThread = none
  waits : ∀ t p, t ≠ σ.currentThread → σ.threads t = some p →
    ∃ k, waiting tr t = some k ∧ k.stack = p.stack ∧ SwitchedOut σ.cpu.mem p k.cpu
  live : ∀ t k, waiting tr t = some k → ∃ p, σ.threads t = some p

theorem settled_init (h : (hostThreads v).init σ) : Settled v [] σ := by
  obtain ⟨p, hp, hthreads⟩ := h
  have honly : ∀ t q, σ.threads t = some q → t = σ.currentThread ∧ q = p := by
    intro t q hq
    rw [hthreads] at hq
    rcases update_some hq with hq | ⟨-, hq⟩
    · exact hq
    · cases hq
  constructor
  · exact ⟨p, by rw [hthreads, Function.update_self]⟩
  · intro t q hq
    exact (honly t q hq).2 ▸ hp
  · intro t u q r htu hq hr
    exact absurd ((honly t q hq).1.trans (honly u r hr).1.symm) htu
  · rfl
  · intro t q ht hq
    exact absurd (honly t q hq).1 ht
  · intro t k hk
    cases hk

namespace Settled

theorem compute (h : Settled v tr σ) (hm : σ.Keeps c.mem) : Settled v tr { σ with cpu := c } where
  current := h.current
  sound := h.sound
  apart := h.apart
  running := h.running
  waits t p ht hp := by
    obtain ⟨k, hk, hstack, hsaved⟩ := h.waits t p ht hp
    exact ⟨k, hk, hstack, hsaved.congr fun x hx => hm t p x ht hp hx⟩
  live := h.live

theorem fork {func arg : Addr} (h : Settled v tr σ) (ht : σ.threads t = none) (hp : p.Sound v)
    (hsize : p.stack.size = 4 * StackSize) (hfree : ∀ u q, σ.threads u = some q → p.Apart q) :
    Settled v (tr ++ [.start t (p.begin v func arg σ.cpu.mem)])
      { σ with
        cpu :=
          { σ.cpu with mem := stackAllocate v p.object p.stack.start func arg σ.cpu.mem }
        threads := Function.update σ.threads t (some p) } := by
  obtain ⟨pc, hpc⟩ := h.current
  have hne : σ.currentThread ≠ t := by
    rintro rfl
    rw [ht] at hpc
    cases hpc
  have hwaiting : waiting (tr ++ [.start t (p.begin v func arg σ.cpu.mem)]) =
      Function.update (waiting tr) t (some (p.begin v func arg σ.cpu.mem)) :=
    waiting_append _ _
  constructor
  · exact ⟨pc, (Function.update_of_ne hne _ _).trans hpc⟩
  · intro u q hq
    rcases update_some hq with ⟨-, rfl⟩ | ⟨-, hq⟩
    · exact hp
    · exact h.sound u q hq
  · intro u w q r huw hq hr
    rcases update_some hq with ⟨rfl, rfl⟩ | ⟨hut, hqu⟩
    · rcases update_some hr with ⟨rfl, rfl⟩ | ⟨-, hrw⟩
      · exact absurd rfl huw
      · exact hfree w r hrw
    · rcases update_some hr with ⟨rfl, rfl⟩ | ⟨-, hrw⟩
      · exact fun x hx hx' => hfree u q hqu x hx' hx
      · exact h.apart u w q r huw hqu hrw
  · rw [hwaiting, Function.update_of_ne hne]
    exact h.running
  · intro u q hu hq
    rw [hwaiting]
    rcases update_some hq with ⟨rfl, rfl⟩ | ⟨hut, hq⟩
    · rw [Function.update_self]
      exact ⟨_, rfl, rfl, saved_begin hp hsize⟩
    · rw [Function.update_of_ne hut]
      obtain ⟨k, hk, hstack, hsaved⟩ := h.waits u q hu hq
      refine ⟨k, hk, hstack, hsaved.congr fun x hx => stackAllocate_of_not hsize fun hx' => ?_⟩
      exact hfree u q hq x hx' hx
  · intro u k hk
    rw [hwaiting] at hk
    rcases update_some hk with ⟨rfl, -⟩ | ⟨hu, hk⟩
    · exact ⟨p, Function.update_self ..⟩
    · obtain ⟨q, hq⟩ := h.live u k hk
      exact ⟨q, (Function.update_of_ne hu _ _).trans hq⟩

theorem delete (h : Settled v tr σ) (ht : t ≠ σ.currentThread) :
    Settled v (tr ++ [.gone t]) { σ with threads := Function.update σ.threads t none } := by
  have hwaiting : waiting (tr ++ [.gone t]) = Function.update (waiting tr) t none :=
    waiting_append _ _
  constructor
  · obtain ⟨p, hp⟩ := h.current
    exact ⟨p, (Function.update_of_ne ht.symm _ _).trans hp⟩
  · exact fun u q hq => h.sound u q (update_none hq).2
  · exact fun u w q r huw hq hr => h.apart u w q r huw (update_none hq).2 (update_none hr).2
  · rw [hwaiting, Function.update_of_ne ht.symm]
    exact h.running
  · intro u q hu hq
    obtain ⟨hut, hq⟩ := update_none hq
    rw [hwaiting, Function.update_of_ne hut]
    exact h.waits u q hu hq
  · intro u k hk
    rw [hwaiting] at hk
    obtain ⟨hu, hk⟩ := update_none hk
    obtain ⟨q, hq⟩ := h.live u k hk
    exact ⟨q, (Function.update_of_ne hu _ _).trans hq⟩

/-- What a call of `SWITCH` finds, and where it goes on. -/
theorem switch (h : Settled v tr σ) (hp : σ.threads σ.currentThread = some p)
    (hq : σ.threads t = some q)
    (hframe : ∀ x, (⟨σ.cpu.reg .esp, 12⟩ : Stretch).Has x → p.stack.Has x)
    (h1 : load σ.cpu.mem (σ.cpu.reg .esp + 4) = p.object)
    (h2 : load σ.cpu.mem (σ.cpu.reg .esp + 8) = q.object) :
    ∃ k, waiting (tr ++ [.leave σ.currentThread ⟨σ.cpu.ret, p.stack⟩]) t = some k ∧
      k.Same ⟨σ.cpu.run v.SWITCH 0 (SWITCH v), q.stack⟩ ∧
      Settled v (tr ++ [.leave σ.currentThread ⟨σ.cpu.ret, p.stack⟩,
          .enter t ⟨σ.cpu.run v.SWITCH 0 (SWITCH v), q.stack⟩])
        { σ with cpu := σ.cpu.run v.SWITCH 0 (SWITCH v), currentThread := t } := by
  have hcall : Called v p σ.cpu := ⟨h.sound _ p hp, hframe, h1⟩
  have hwaiting : waiting (tr ++ [.leave σ.currentThread ⟨σ.cpu.ret, p.stack⟩]) =
      Function.update (waiting tr) σ.currentThread (some ⟨σ.cpu.ret, p.stack⟩) :=
    waiting_append _ _
  -- everybody is to go on somewhere
  have hall : ∀ u r, σ.threads u = some r → ∃ k,
      waiting (tr ++ [.leave σ.currentThread ⟨σ.cpu.ret, p.stack⟩]) u = some k ∧
        k.stack = r.stack ∧ SwitchedOut (savedMemory v p σ.cpu) r k.cpu := by
    intro u r hr
    rw [hwaiting]
    by_cases hu : u = σ.currentThread
    · subst hu
      rw [hp] at hr
      obtain rfl := Option.some.inj hr
      exact ⟨_, Function.update_self .., rfl, hcall.saved⟩
    · rw [Function.update_of_ne hu]
      obtain ⟨k, hk, hstack, hsaved⟩ := h.waits u r hu hr
      refine ⟨k, hk, hstack, hsaved.congr fun x hx => savedMemory_of_not (fun hx' => ?_) ?_⟩
      · exact h.apart u _ r p hu hr hp x hx (.inl hx')
      · exact (h.sound u r hr).not_eax hx
  obtain ⟨k, hk, hstack, hsaved⟩ := hall t q hq
  have hrun := hcall.run_SWITCH (h.sound t q hq) h2 hsaved
  -- its argument is all that changes for the others
  have hmem : ∀ x, ¬(word v.eax_save).Has x → ¬(word (k.cpu.reg .esp)).Has x →
      (σ.cpu.run v.SWITCH 0 (SWITCH v)).mem x = savedMemory v p σ.cpu x := by
    intro x hx hx'
    rw [hrun]
    exact (store_of_not_has hx').trans (store_of_not_has hx)
  have hafter : waiting (tr ++ [.leave σ.currentThread ⟨σ.cpu.ret, p.stack⟩,
      .enter t ⟨σ.cpu.run v.SWITCH 0 (SWITCH v), q.stack⟩]) =
      Function.update (waiting (tr ++ [.leave σ.currentThread ⟨σ.cpu.ret, p.stack⟩])) t none := by
    rw [hwaiting]
    exact waiting_append _ _
  refine ⟨k, hk, ⟨?_, ?_, hstack.symm, fun x hx hx' => ?_⟩, ?_⟩
  · simp only [hrun]
  · simp only [hrun]
  · rw [hstack] at hx
    rw [hmem x ((h.sound t q hq).stack_eax x hx) hx', hsaved.mem x hx]
  constructor
  · exact ⟨q, hq⟩
  · exact h.sound
  · exact h.apart
  · rw [hafter]
    exact Function.update_self ..
  · intro u r hu hr
    obtain ⟨k', hk', hstack', hsaved'⟩ := hall u r hr
    refine ⟨k', ?_, hstack', hsaved'.congr fun x hx => ?_⟩
    · rw [hafter, Function.update_of_ne hu, hk']
    · exact hmem x ((h.sound u r hr).not_eax hx)
        fun hx' => h.apart u t r q hu hr hq x hx (.inr (hsaved.slot hx'))
  · intro u k' hk'
    by_cases hu : u = t
    · subst hu
      exact ⟨q, hq⟩
    rw [hafter, Function.update_of_ne hu, hwaiting] at hk'
    rcases update_some hk' with ⟨rfl, -⟩ | ⟨-, hk'⟩
    · exact ⟨p, hp⟩
    · exact h.live u k' hk'

end Settled

theorem settled_step (h : Settled v tr σ) (hg : GoesOn Continuation.Same tr)
    (hs : HostThreads.Step v σ es τ) :
    Settled v (tr ++ es) τ ∧ GoesOn Continuation.Same (tr ++ es) := by
  cases hs with
  | compute hm =>
    rw [List.append_nil]
    exact ⟨h.compute hm, hg⟩
  | fork ht hp hsize hfree =>
    exact ⟨h.fork ht hp hsize hfree, hg.other fun u k he => by cases he⟩
  | delete ht => exact ⟨h.delete ht, hg.other fun u k he => by cases he⟩
  | switch hp hq _ hframe h1 h2 =>
    obtain ⟨k, hk, hsame, hnext⟩ := h.switch hp hq hframe h1 h2
    refine ⟨hnext, ?_⟩
    rw [List.append_cons]
    exact (hg.other fun u k he => by cases he).enter hk hsame

theorem settled_run (h : (hostThreads v).Run tr σ) :
    Settled v tr σ ∧ GoesOn Continuation.Same tr := by
  refine h.invariant (I := fun tr σ => Settled v tr σ ∧ GoesOn Continuation.Same tr) ?_ ?_
  · exact fun σ hi => ⟨settled_init hi, goesOn_nil⟩
  · exact fun _ hi hs => settled_step hi.1 hi.2 hs

/-! ## The first function of a thread -/

/-- `Fork(func, arg)` has the thread begin at `k`. -/
def Forked (v : Symbols) (func arg : Addr) (k : Continuation) : Prop :=
  ∃ (p : Place) (m : Memory), p.stack.size = 4 * StackSize ∧ k = p.begin v func arg m

/-- The stack has room for what `ThreadRoot` pushes. -/
theorem arg_room (a : Addr) :
    (a + BitVec.ofNat 32 (4 * (StackSize - 4)) - 4 - 4 - a).toNat + 4 ≤ 4 * StackSize := by
  simp only [StackSize]
  bv_omega

/-- `ThreadRoot` calls `InterruptEnable()`, then `func(arg)` and then `ThreadFinish()`. -/
theorem threadRoot_calls {func arg : Addr} {k k' : Continuation} (hk : Forked v func arg k)
    (hsame : k.Same k') {params : Addr → ℕ} (hparams : params v.InterruptEnable = 0)
    {calls : List Cpu}
    (h : Reaches params k.stack v.ThreadRoot 0 ThreadRoot k'.cpu calls d) :
    calls.map (fun e => e.eip) <+: [v.InterruptEnable, func, v.ThreadFinish] ∧
      ∀ e, calls[1]? = some e → load e.mem (e.reg .esp + 4) = arg := by
  obtain ⟨p, m, hsize, rfl⟩ := hk
  generalize hc : k'.cpu = c at h
  have hreg : c.reg = (p.begin v func arg m).cpu.reg := by rw [← hc, hsame.reg]
  have hnil : ([] : List Cpu).map (fun e => e.eip) <+: [v.InterruptEnable, func, v.ThreadFinish] ∧
      ∀ e, ([] : List Cpu)[1]? = some e → load e.mem (e.reg .esp + 4) = arg :=
    ⟨List.nil_prefix, fun e he => by cases he⟩
  rcases h.after (by simp) with rfl | h
  · exact hnil
  rcases h.after (by simp) with rfl | h
  · exact hnil
  rcases h.after (by simp) with rfl | h
  · exact hnil
  generalize hc₃ : Cpu.exec _ (.pushl .edx) _ = c₃ at h
  have hecx : c₃.reg .ecx = v.InterruptEnable := by
    rw [← hc₃]
    exact congrFun hreg .ecx
  have hesi : c₃.reg .esi = func := by
    rw [← hc₃]
    exact congrFun hreg .esi
  have hedi : c₃.reg .edi = v.ThreadFinish := by
    rw [← hc₃]
    exact congrFun hreg .edi
  have hesp : c₃.reg .esp = p.stack.start + BitVec.ofNat 32 (4 * (StackSize - 4)) - 4 - 4 := by
    rw [← hc₃]
    exact congrArg (fun a => a - 4 - 4) (congrFun hreg .esp)
  have harg : load c₃.mem (c₃.reg .esp) = arg := by
    rw [← hc₃]
    exact (load_store _ _ _).trans (congrFun hreg .edx)
  rcases h.called with rfl | ⟨rest, rfl, hrest⟩
  · exact hnil
  have hroom : (c₃.reg .esp - p.stack.start).toNat + 4 ≤ p.stack.size := by
    rw [hesp, hsize]
    exact arg_room p.stack.start
  rcases hrest with rfl | ⟨c₄, hret₄, h⟩
  · exact ⟨⟨[func, v.ThreadFinish], by rw [← hecx]; rfl⟩, fun e he => by cases he⟩
  have hbound : p.stack.size ≤ 2 ^ 32 := by
    rw [hsize]
    decide
  rw [hecx, hparams] at hret₄
  have harg₄ : load c₄.mem (c₄.reg .esp) = arg := by
    rw [hret₄.esp_call, hret₄.load_call hbound hroom, harg]
  have hesi₄ : c₄.reg .esi = func := (hret₄.kept_call (by decide)).trans hesi
  have hedi₄ : c₄.reg .edi = v.ThreadFinish := (hret₄.kept_call (by decide)).trans hedi
  rcases h.called with rfl | ⟨rest, rfl, hrest⟩
  · exact ⟨⟨[func, v.ThreadFinish], by rw [← hecx]; rfl⟩, fun e he => by cases he⟩
  have hsecond : ∀ {l : List Cpu} {e₁ e : Cpu} {a : Addr},
      (e₁ :: c₄.exec a (.call .esi) :: l)[1]? = some e → load e.mem (e.reg .esp + 4) = arg := by
    intro l e₁ e a he
    obtain rfl : c₄.exec a (.call .esi) = e := Option.some.inj he
    rw [Cpu.call_esp, BitVec.sub_add_cancel, Cpu.call_load, harg₄]
  rcases hrest with rfl | ⟨c₅, hret₅, h⟩
  · exact ⟨⟨[v.ThreadFinish], by rw [← hecx, ← hesi₄]; rfl⟩, fun e he => hsecond he⟩
  have hedi₅ : c₅.reg .edi = v.ThreadFinish := (hret₅.kept_call (by decide)).trans hedi₄
  rcases h.called with rfl | ⟨rest, rfl, hrest⟩
  · exact ⟨⟨[v.ThreadFinish], by rw [← hecx, ← hesi₄]; rfl⟩, fun e he => hsecond he⟩
  obtain rfl : rest = [] := by
    rcases hrest with rfl | ⟨c₆, -, h⟩
    · rfl
    · exact h.no_calls (by simp)
  exact ⟨⟨[], by rw [← hecx, ← hesi₄, ← hedi₅]; rfl⟩, fun e he => hsecond he⟩

/-! ## Threads go on where they have left -/

/-- Whoever gets the processor by `SWITCH` goes on as if its own call of `SWITCH` had done nothing,
whatever the others did between to memory that is not its own. If it has not run before, it calls
what `Fork` was given, with its argument, between `InterruptEnable` and `ThreadFinish`. -/
theorem switch_goesOn (h : (hostThreads v).Run tr σ) {pre post : List (Turn Tid Continuation)}
    {k' : Continuation} (htr : tr = pre ++ .enter t k' :: post) :
    ∃ k, waiting pre t = some k ∧ k.Same k' ∧
      ∀ func arg, Forked v func arg k → ∀ params calls d, params v.InterruptEnable = 0 →
        Reaches params k.stack v.ThreadRoot 0 ThreadRoot k'.cpu calls d →
          calls.map (fun e => e.eip) <+: [v.InterruptEnable, func, v.ThreadFinish] ∧
            ∀ e, calls[1]? = some e → load e.mem (e.reg .esp + 4) = arg := by
  obtain ⟨k, hk, hsame⟩ := (settled_run h).2 pre t k' post htr
  refine ⟨k, hk, hsame, ?_⟩
  intro func arg hforked params calls d hparams hreaches
  exact threadRoot_calls hforked hsame hparams hreaches

/-- The running thread can switch to any other. -/
theorem exists_switch (h : (hostThreads v).Run tr σ) (hp : σ.threads σ.currentThread = some p)
    (hq : σ.threads t = some q) (esp : Addr)
    (hframe : ∀ x, (⟨esp, 12⟩ : Stretch).Has x → p.stack.Has x) :
    ∃ k k' τ, (hostThreads v).Run (tr ++ [.leave σ.currentThread k, .enter t k']) τ ∧
      τ.threads = σ.threads ∧ τ.currentThread = t := by
  have hpair : ([(4, p.object), (8, q.object)] : List (Addr × BitVec 32)).map Prod.fst = [4, 8] :=
    rfl
  have hapart : (([(4, p.object), (8, q.object)] : List (Addr × BitVec 32)).map
      Prod.fst).Pairwise fun i j => 4 ≤ (i - j).toNat ∧ 4 ≤ (j - i).toNat := by
    rw [hpair]
    decide
  -- the arguments are put on the stack
  generalize hc : ({
    reg := Function.update σ.cpu.reg .esp esp
    eip := v.SWITCH 0
    mem := stores σ.cpu.mem (words esp [(4, p.object), (8, q.object)]) } : Cpu) = c
  have hesp : c.reg .esp = esp := by
    rw [← hc]
    exact Function.update_self Reg.esp esp σ.cpu.reg
  have hload : ∀ {i w}, (i, w) ∈ ([(4, p.object), (8, q.object)] : List (Addr × BitVec 32)) →
      load c.mem (c.reg .esp + i) = w := by
    intro i w hw
    rw [hesp, ← hc]
    exact load_words hapart hw
  have hkeeps : σ.Keeps c.mem := by
    intro u r x hu hr hx
    rw [← hc]
    refine stores_of_not_has fun w hw hwx => ?_
    have hstack : p.stack.Has x := by
      refine hframe x ?_
      obtain ⟨i, hi, rfl⟩ := List.mem_map.mp hw
      refine has_of_word (s := ⟨esp, 12⟩) ?_ (show 12 ≤ 2 ^ 32 by decide) hwx
      simp only [List.mem_cons, List.not_mem_nil, or_false] at hi
      rcases hi with rfl | rfl
      · exact (by decide : (4 : Addr).toNat + 4 ≤ 12)
      · exact (by decide : (8 : Addr).toNat + 4 ≤ 12)
    exact (settled_run h).1.apart u _ r p hu hr hp x hx (.inr hstack)
  have hnext : (hostThreads v).Run (tr ++ []) { σ with cpu := c } := .next h (.compute hkeeps)
  rw [List.append_nil] at hnext
  refine ⟨_, _, _, .next hnext (.switch (p := p) (q := q) hp hq ?_ ?_ (hload (.head _))
    (hload (.tail _ (.head _)))), rfl, rfl⟩
  · rw [← hc]
  · rw [hesp]
    exact hframe

/-- A main thread and the thread it forks. -/
def mainPlace : Place := ⟨0x200, ⟨0x10000, 0x1000⟩⟩
def childPlace : Place := ⟨0x300, ⟨0x100000, 4 * StackSize⟩⟩

def sampleSymbols : Symbols where
  SWITCH k := 0x1000 + BitVec.ofNat 32 k
  ThreadRoot k := 0x2000 + BitVec.ofNat 32 k
  InterruptEnable := 0x3000
  ThreadFinish := 0x4000
  eax_save := 0x100

theorem sound_mainPlace : mainPlace.Sound sampleSymbols := by
  constructor
  · decide
  all_goals
    intro x hx hx'
    simp only [Place.saved, mainPlace, sampleSymbols, word, Stretch.Has] at hx hx'
    bv_omega

theorem sound_childPlace : childPlace.Sound sampleSymbols := by
  constructor
  · decide
  all_goals
    intro x hx hx'
    simp only [Place.saved, childPlace, sampleSymbols, word, Stretch.Has, StackSize] at hx hx'
    bv_omega

theorem childPlace_apart : childPlace.Apart mainPlace := by
  intro x hx hx'
  simp only [Place.Has, Place.saved, childPlace, mainPlace, Stretch.Has, StackSize] at hx hx'
  bv_omega

/-- The functions that a new thread calls may return at once. -/
theorem threadRoot_reaches (params : Addr → ℕ) (stack : Stretch) (place : ℕ → Addr) (c : Cpu) :
    ∃ calls d, Reaches params stack place 0 ThreadRoot c calls d ∧ calls.length = 3 := by
  have hcalls : ∀ c, ∃ calls d, Reaches params stack place 3 (ThreadRoot.drop 3) c calls d ∧
      calls.length = 3 := fun c =>
    ⟨_, _, .back (Cpu.returned_ret _) (.back (Cpu.returned_ret _) (.inside ..)), rfl⟩
  obtain ⟨calls, d, h, hlength⟩ := hcalls _
  exact ⟨calls, d, .next (by simp) (.next (by simp) (.next (by simp) h)), hlength⟩

/-- The main thread forks a thread, which calls its functions and switches back. -/
theorem switch_goesOn_main : ∃ σ b k₁ d₁ k₂ d₂ calls d,
    (hostThreads sampleSymbols).Run
      [.start 1 b, .leave 0 k₁, .enter 1 d₁, .leave 1 k₂, .enter 0 d₂] σ ∧
    b.Same d₁ ∧ k₁.Same d₂ ∧
    Reaches (fun a => if a = 0x5000 then 1 else 0) b.stack sampleSymbols.ThreadRoot 0 ThreadRoot
      d₁.cpu calls d ∧
    calls.map (fun e => e.eip) = [0x3000, 0x5000, 0x4000] := by
  have hinit : (hostThreads sampleSymbols).Run [] ⟨⟨fun _ => 0, 0, fun _ => 0⟩, 0,
      Function.update (fun _ => none) 0 (some mainPlace)⟩ :=
    .start ⟨mainPlace, sound_mainPlace, rfl⟩
  have hfree : ∀ u q, Function.update (fun _ => none) 0 (some mainPlace) u = some q →
      childPlace.Apart q := by
    intro u q hq
    rcases update_some hq with ⟨-, rfl⟩ | ⟨-, hq⟩
    · exact childPlace_apart
    · cases hq
  have hfork : (hostThreads sampleSymbols).Run
      ([] ++ [.start 1 (childPlace.begin sampleSymbols 0x5000 7 fun _ => 0)]) _ :=
    hinit.next (.fork rfl sound_childPlace rfl hfree)
  obtain ⟨k₁, d₁, τ, hrun, hthreads, hcurrent⟩ := exists_switch (t := 1) hfork rfl rfl 0x10800
    fun x hx => by
      simp only [mainPlace, Stretch.Has] at hx ⊢
      bv_omega
  obtain ⟨k₂, d₂, σ, hback, -, -⟩ := exists_switch (t := 0) (p := childPlace) (q := mainPlace) hrun
    (by rw [hthreads, hcurrent]; rfl) (by rw [hthreads]; rfl) 0x120000 fun x hx => by
      simp only [childPlace, Stretch.Has, StackSize] at hx ⊢
      bv_omega
  rw [hcurrent] at hback
  generalize hstart : childPlace.begin sampleSymbols 0x5000 7 (fun _ => 0) = start at hback
  have hfirst : (hostThreads sampleSymbols).Run
      ([.start 1 start, .leave 0 k₁] ++ .enter 1 d₁ :: [.leave 1 k₂, .enter 0 d₂]) σ := hback
  have hsecond : (hostThreads sampleSymbols).Run
      ([.start 1 start, .leave 0 k₁, .enter 1 d₁, .leave 1 k₂] ++ .enter 0 d₂ :: []) σ := hback
  obtain ⟨b, hb, hbegin, hroot⟩ := switch_goesOn hfirst rfl
  obtain rfl := Option.some.inj hb
  obtain ⟨k, hk, hsame, -⟩ := switch_goesOn hsecond rfl
  obtain rfl := Option.some.inj hk
  obtain ⟨calls, d, hreaches, hlength⟩ := threadRoot_reaches (fun a => if a = 0x5000 then 1 else 0)
    start.stack sampleSymbols.ThreadRoot d₁.cpu
  obtain ⟨hcalls, -⟩ := hroot 0x5000 7 ⟨childPlace, _, rfl, hstart.symm⟩ _ calls d rfl hreaches
  exact ⟨σ, _, _, d₁, k₂, d₂, calls, d, hback, hbegin, hsame, hreaches,
    hcalls.eq_of_length (by rw [List.length_map, hlength]; rfl)⟩

end Nachos
