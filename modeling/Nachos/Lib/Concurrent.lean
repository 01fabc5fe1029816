import Nachos.Lib.System
import Mathlib.Data.Int.Order.Basic
import Mathlib.Tactic.NormNum

/-!
# Threads that share data and counting semaphores

A program says what each thread does next at each of its control points. The
atomic semantics below interleaves the threads freely and lets a `P` happen in one
indivisible step, when the value allows it. It knows no processor, queue or
scheduler: a kernel that runs the same program is compared with it.
-/
namespace Concurrent

/-- A thread, numbered in the order of creation. Thread `0` is there from the start. -/
abbrev Tid := ℕ

/-- Semaphore values are 32-bit signed integers, and wrap around. -/
def incr (v : Int) : Int := Int.bmod (v + 1) (2 ^ 32)

def decr (v : Int) : Int := Int.bmod (v - 1) (2 ^ 32)

theorem incr_eq {v : Int} (h0 : -2 ^ 31 ≤ v) (h1 : v < 2 ^ 31 - 1) : incr v = v + 1 := by
  unfold incr
  rw [Int.bmod_eq_of_le] <;> norm_num <;> omega

theorem decr_eq {v : Int} (h0 : -2 ^ 31 < v) (h1 : v ≤ 2 ^ 31 - 1) : decr v = v - 1 := by
  unfold decr
  rw [Int.bmod_eq_of_le] <;> norm_num <;> omega

/-- The one value from which counting up leaves the range. -/
theorem incr_max : incr (2 ^ 31 - 1) = -2 ^ 31 := by decide

/-- What a thread does next, and the control point it reaches by that. `S` names the
semaphores, `D` is the shared data, `Ev` what a local action may report, and `C` the
choices a local action leaves open. -/
inductive Instr (S Pc D Ev C : Type)
  | P (s : S) (k : Pc)
  | V (s : S) (k : Pc)
  | yield (k : Pc)
  | tick (k : Pc)
  | fork (child : Pc) (k : Tid → Pc) (setup : Tid → D → D)
  | act (f : C → D → Option (Pc × D × List Ev))
  | finish
  | stop

/-- A program, with the hooks a scheduler calls around a switch and at an interrupt. -/
structure Program (S Pc D Ev C : Type) where
  code : Tid → Pc → Instr S Pc D Ev C
  value : S → Int
  start : Pc
  data : D
  device : S → Bool
  switchOut : Tid → D → D
  switchIn : Tid → D → D
  interrupt : D → D

/-- What can be seen of a run: completed semaphore operations, an operation by an
interrupt handler having no thread, and the reports of local actions. -/
inductive Event (S Ev : Type)
  | P (t : Tid) (s : S)
  | V (t : Option Tid) (s : S)
  | act (t : Tid) (e : Ev)
  deriving DecidableEq

variable {S Pc D Ev C : Type}

/-- A state of the atomic semantics. -/
@[ext] structure State (S Pc D : Type) where
  value : S → Int
  pc : Tid → Pc
  nextTid : Tid
  data : D

namespace State

/-- Thread `t` moves to the control point `k`. -/
def goto (a : State S Pc D) (t : Tid) (k : Pc) : State S Pc D :=
  { a with pc := Function.update a.pc t k }

section
variable (a : State S Pc D) (t : Tid) (k : Pc)

@[simp] theorem goto_value : (a.goto t k).value = a.value := rfl
@[simp] theorem goto_nextTid : (a.goto t k).nextTid = a.nextTid := rfl
@[simp] theorem goto_data : (a.goto t k).data = a.data := rfl
@[simp] theorem goto_pc : (a.goto t k).pc = Function.update a.pc t k := rfl
end

def setValue [DecidableEq S] (a : State S Pc D) (s : S) (v : Int) : State S Pc D :=
  { a with value := Function.update a.value s v }

variable [DecidableEq S] (a : State S Pc D) (s : S) (v : Int)

@[simp] theorem setValue_value : (a.setValue s v).value = Function.update a.value s v := rfl
@[simp] theorem setValue_nextTid : (a.setValue s v).nextTid = a.nextTid := rfl
@[simp] theorem setValue_data : (a.setValue s v).data = a.data := rfl
@[simp] theorem setValue_pc : (a.setValue s v).pc = a.pc := rfl

end State

variable [DecidableEq S]

/-- The hooks a scheduler may call at any time. -/
inductive Program.Hook (prog : Program S Pc D Ev C) : D → D → Prop
  | switchOut (t : Tid) (d : D) : Hook prog d (prog.switchOut t d)
  | switchIn (t : Tid) (d : D) : Hook prog d (prog.switchIn t d)
  | interrupt (d : D) : Hook prog d (prog.interrupt d)

/-- One atomic step of some thread, of an interrupt handler, or of a hook. -/
inductive Step (prog : Program S Pc D Ev C) :
    State S Pc D → List (Event S Ev) → State S Pc D → Prop
  | P {a : State S Pc D} {t : Tid} {s : S} {k : Pc} (ht : t < a.nextTid)
      (hc : prog.code t (a.pc t) = .P s k) (hv : a.value s ≠ 0) :
      Step prog a [.P t s] ((a.setValue s (decr (a.value s))).goto t k)
  | V {a : State S Pc D} {t : Tid} {s : S} {k : Pc} (ht : t < a.nextTid)
      (hc : prog.code t (a.pc t) = .V s k) :
      Step prog a [.V (some t) s] ((a.setValue s (incr (a.value s))).goto t k)
  | handler {a : State S Pc D} {s : S} (hd : prog.device s = true) :
      Step prog a [.V none s] (a.setValue s (incr (a.value s)))
  | yield {a : State S Pc D} {t : Tid} {k : Pc} (ht : t < a.nextTid)
      (hc : prog.code t (a.pc t) = .yield k ∨ prog.code t (a.pc t) = .tick k) :
      Step prog a [] (a.goto t k)
  | fork {a : State S Pc D} {t : Tid} {child : Pc} {k : Tid → Pc} {setup : Tid → D → D}
      (ht : t < a.nextTid) (hc : prog.code t (a.pc t) = .fork child k setup) :
      Step prog a []
        { (a.goto a.nextTid child).goto t (k a.nextTid) with
          nextTid := a.nextTid + 1, data := setup a.nextTid a.data }
  | act {a : State S Pc D} {t : Tid} {f : C → D → Option (Pc × D × List Ev)} {c : C} {k : Pc}
      {d : D} {es : List Ev} (ht : t < a.nextTid) (hc : prog.code t (a.pc t) = .act f)
      (hf : f c a.data = some (k, d, es)) :
      Step prog a (es.map (.act t)) { a.goto t k with data := d }
  | hook {a : State S Pc D} {d : D} (hd : prog.Hook a.data d) :
      Step prog a [] { a with data := d }

/-- The program started with thread `0` alone. -/
def Program.initial (prog : Program S Pc D Ev C) : State S Pc D where
  value := prog.value
  pc _ := prog.start
  nextTid := 1
  data := prog.data

def atomic (prog : Program S Pc D Ev C) : System (State S Pc D) (Event S Ev) where
  init a := a = prog.initial
  step := Step prog

end Concurrent
