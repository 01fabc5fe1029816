import Nachos.Lib.Concurrent

/-!
# History variables

A program that also keeps notes of what its threads do. The notes are written and never
read, so a run with notes is a run without them.
-/
namespace Concurrent

variable {S Pc D Ev C N : Type}

/-- What is noted when a thread at a control point acts, with the choice it makes, and when
it forks another. -/
structure Notes (Pc D C N : Type) where
  act : Tid → Pc → C → D → List N
  fork : Tid → Pc → Tid → List N

def Instr.noting (act : C → D → List N) (fork : Tid → List N) :
    Instr S Pc D Ev C → Instr S Pc (D × List N) Ev C
  | .P s k => .P s k
  | .V s k => .V s k
  | .yield k => .yield k
  | .tick k => .tick k
  | .fork child k setup => .fork child k fun u d => (setup u d.1, d.2 ++ fork u)
  | .act f => .act fun c d => (f c d.1).map fun r => (r.1, (r.2.1, d.2 ++ act c d.1), r.2.2)
  | .finish => .finish
  | .stop => .stop

def Program.noting (prog : Program S Pc D Ev C) (n : Notes Pc D C N) :
    Program S Pc (D × List N) Ev C where
  code t pc := (prog.code t pc).noting (n.act t pc) (n.fork t pc)
  value := prog.value
  start := prog.start
  data := (prog.data, [])
  device := prog.device
  switchOut t d := (prog.switchOut t d.1, d.2)
  switchIn t d := (prog.switchIn t d.1, d.2)
  interrupt d := (prog.interrupt d.1, d.2)

namespace State

/-- The state without the notes. -/
def forget (a : State S Pc (D × List N)) : State S Pc D where
  value := a.value
  pc := a.pc
  nextTid := a.nextTid
  data := a.data.1

section
variable (a : State S Pc (D × List N))

@[simp] theorem forget_value : a.forget.value = a.value := rfl
@[simp] theorem forget_pc : a.forget.pc = a.pc := rfl
@[simp] theorem forget_nextTid : a.forget.nextTid = a.nextTid := rfl
@[simp] theorem forget_data : a.forget.data = a.data.1 := rfl
end

end State

variable [DecidableEq S] {prog : Program S Pc D Ev C} {n : Notes Pc D C N}
  {a b : State S Pc (D × List N)} {tr es : List (Event S Ev)}

/-- A step of the program with notes: a step of the program, and what it adds to them. -/
inductive Noted (prog : Program S Pc D Ev C) (n : Notes Pc D C N) (a : State S Pc (D × List N)) :
    List (Event S Ev) → State S Pc (D × List N) → Prop
  | P {t : Tid} {s : S} {k : Pc} (ht : t < a.nextTid) (hc : prog.code t (a.pc t) = .P s k)
      (hv : a.value s ≠ 0) :
      Noted prog n a [.P t s] ((a.setValue s (decr (a.value s))).goto t k)
  | V {t : Tid} {s : S} {k : Pc} (ht : t < a.nextTid) (hc : prog.code t (a.pc t) = .V s k) :
      Noted prog n a [.V (some t) s] ((a.setValue s (incr (a.value s))).goto t k)
  | handler {s : S} (hd : prog.device s = true) :
      Noted prog n a [.V none s] (a.setValue s (incr (a.value s)))
  | yield {t : Tid} {k : Pc} (ht : t < a.nextTid)
      (hc : prog.code t (a.pc t) = .yield k ∨ prog.code t (a.pc t) = .tick k) :
      Noted prog n a [] (a.goto t k)
  | fork {t : Tid} {child : Pc} {k : Tid → Pc} {setup : Tid → D → D} (ht : t < a.nextTid)
      (hc : prog.code t (a.pc t) = .fork child k setup) :
      Noted prog n a []
        { (a.goto a.nextTid child).goto t (k a.nextTid) with
          nextTid := a.nextTid + 1
          data := (setup a.nextTid a.data.1, a.data.2 ++ n.fork t (a.pc t) a.nextTid) }
  | act {t : Tid} {f : C → D → Option (Pc × D × List Ev)} {c : C} {k : Pc} {d : D}
      {es : List Ev} (ht : t < a.nextTid) (hc : prog.code t (a.pc t) = .act f)
      (hf : f c a.data.1 = some (k, d, es)) :
      Noted prog n a (es.map (.act t))
        { a.goto t k with data := (d, a.data.2 ++ n.act t (a.pc t) c a.data.1) }
  | hook {d : D} (hd : prog.Hook a.data.1 d) : Noted prog n a [] { a with data := (d, a.data.2) }

theorem noted_of_step (h : Step (prog.noting n) a es b) : Noted prog n a es b := by
  cases h with
  | @P t s k ht hc hv =>
    simp only [Program.noting] at hc
    cases hi : prog.code t (a.pc t) <;> simp [hi, Instr.noting] at hc
    obtain ⟨rfl, rfl⟩ := hc
    exact .P ht hi hv
  | @V t s k ht hc =>
    simp only [Program.noting] at hc
    cases hi : prog.code t (a.pc t) <;> simp [hi, Instr.noting] at hc
    obtain ⟨rfl, rfl⟩ := hc
    exact .V ht hi
  | handler hd => exact .handler hd
  | @yield t k ht hc =>
    simp only [Program.noting] at hc
    refine .yield ht ?_
    cases hi : prog.code t (a.pc t) <;> simp [hi, Instr.noting] at hc
    · exact .inl (by rw [hc])
    · exact .inr (by rw [hc])
  | @fork t child k setup ht hc =>
    simp only [Program.noting] at hc
    cases hi : prog.code t (a.pc t) <;> simp only [hi, Instr.noting, reduceCtorEq, Instr.fork.injEq] at hc
    obtain ⟨rfl, rfl, rfl⟩ := hc
    exact .fork ht hi
  | @act t f c k d es ht hc hf =>
    simp only [Program.noting] at hc
    cases hi : prog.code t (a.pc t) <;> simp only [hi, Instr.noting, reduceCtorEq, Instr.act.injEq] at hc
    subst hc
    obtain ⟨⟨k', d', es'⟩, hf', he⟩ := Option.map_eq_some_iff.mp hf
    simp only [Prod.mk.injEq] at he
    obtain ⟨rfl, rfl, rfl⟩ := he
    exact .act ht hi hf'
  | hook hd => cases hd <;> exact .hook (by constructor)

theorem Noted.forget (h : Noted prog n a es b) : Step prog a.forget es b.forget := by
  cases h with
  | P ht hc hv => exact Step.P ht hc hv
  | V ht hc => exact Step.V ht hc
  | handler hd => exact Step.handler hd
  | yield ht hc => exact Step.yield ht hc
  | fork ht hc => exact Step.fork ht hc
  | act ht hc hf => exact Step.act ht hc hf
  | hook hd => exact Step.hook hd

/-- A run with notes is a run. -/
theorem forget_run (h : (atomic (prog.noting n)).Run tr a) : (atomic prog).Run tr a.forget := by
  induction h with
  | start hi =>
    subst hi
    exact .start rfl
  | next _ hs ih => exact .next ih (noted_of_step hs).forget

end Concurrent
