import Nachos.Lib.System

/-!
# Threads that take turns on one processor

A thread that leaves the processor is to go on where it has left. The contexts `C` are whatever a
thread needs for that.
-/
namespace Coroutine

/-- What happens to the threads `T`. -/
inductive Turn (T C : Type*)
  /-- A thread is made, which is to begin at `c`. -/
  | start (t : T) (c : C)
  /-- The running thread gives up the processor, and is to go on at `c`. -/
  | leave (t : T) (c : C)
  /-- A thread gets the processor, and goes on at `c`. -/
  | enter (t : T) (c : C)
  | gone (t : T)

variable {T C : Type*} [DecidableEq T] {tr es : List (Turn T C)} {t : T} {c : C}
  {same : C → C → Prop}

def after (w : T → Option C) : Turn T C → T → Option C
  | .start t c | .leave t c => Function.update w t (some c)
  | .enter t _ | .gone t => Function.update w t none

/-- Where the threads that do not run are to go on. -/
def waiting (tr : List (Turn T C)) : T → Option C := tr.foldl after fun _ => none

theorem waiting_append (tr es : List (Turn T C)) :
    waiting (tr ++ es) = es.foldl after (waiting tr) := by
  rw [waiting, List.foldl_append]
  rfl

/-- Whoever gets the processor goes on where it has left it, or begins where it was to. -/
def GoesOn (same : C → C → Prop) (tr : List (Turn T C)) : Prop :=
  ∀ pre t c post, tr = pre ++ .enter t c :: post → ∃ c', waiting pre t = some c' ∧ same c' c

theorem goesOn_nil : GoesOn same ([] : List (Turn T C)) := by
  intro pre t c post h
  simp at h

/-- An event that gives nobody the processor. -/
theorem GoesOn.other {e : Turn T C} (h : GoesOn same tr) (he : ∀ t c, e ≠ .enter t c) :
    GoesOn same (tr ++ [e]) := by
  intro pre t c post htr
  rcases System.split_append htr with ⟨l, rfl, -⟩ | ⟨l, rfl, hl⟩
  · exact h pre t c l rfl
  · rcases List.singleton_eq_append_iff.mp hl with ⟨-, hl⟩ | ⟨-, hl⟩
    · exact absurd (List.cons.inj hl).1.symm (he t c)
    · cases hl

theorem GoesOn.enter {c' : C} (h : GoesOn same tr) (hw : waiting tr t = some c')
    (hc : same c' c) : GoesOn same (tr ++ [.enter t c]) := by
  intro pre u d post htr
  rcases System.split_append htr with ⟨l, rfl, -⟩ | ⟨l, rfl, hl⟩
  · exact h pre u d l rfl
  · rcases List.singleton_eq_append_iff.mp hl with ⟨rfl, hl⟩ | ⟨-, hl⟩
    · obtain ⟨hu, -⟩ := List.cons.inj hl
      injection hu with hu hd
      subst hu hd
      rw [List.append_nil]
      exact ⟨c', hw, hc⟩
    · cases hl

end Coroutine
