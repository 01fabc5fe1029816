import Mathlib.Logic.Function.Basic
import Mathlib.Data.List.Basic
import Mathlib.Tactic.Common

/-!
# Transition systems with emitted events

A step goes from one state to the next and emits a list of events. A run is kept
as the list of everything emitted so far together with its last state, so that an
invariant may speak about the past without a history variable in the state.
-/

/-- Where a system may start, and what one step may do. -/
structure System (σ ε : Type*) where
  init : σ → Prop
  step : σ → List ε → σ → Prop

namespace System

variable {σ τ ε δ α : Type*} {M : System σ ε} {N : System τ δ}
  {tr es : List ε} {s t : σ}

/-- `Run M tr s`: a run of `M` emits `tr` and ends in `s`. -/
inductive Run (M : System σ ε) : List ε → σ → Prop
  | start {s : σ} : M.init s → Run M [] s
  | next {tr es : List ε} {s t : σ} : Run M tr s → M.step s es t → Run M (tr ++ es) t

/-- Only the steps that meet the condition `C` on their source and events. -/
def restrict (M : System σ ε) (C : σ → List ε → Prop) : System σ ε where
  init := M.init
  step s es t := M.step s es t ∧ C s es

theorem Run.of_restrict {C : σ → List ε → Prop} (h : (M.restrict C).Run tr s) : M.Run tr s := by
  induction h with
  | start hi => exact .start hi
  | next _ hs ih => exact .next ih hs.1

/-- The invariant rule. The step case may use that the source is already reached. -/
theorem Run.invariant {I : List ε → σ → Prop} (h : M.Run tr s)
    (base : ∀ s, M.init s → I [] s)
    (step : ∀ {tr s es t}, M.Run tr s → I tr s → M.step s es t → I (tr ++ es) t) : I tr s := by
  induction h with
  | start hi => exact base _ hi
  | next hr hs ih => exact step hr ih hs

/-- An element of a list in two parts is in one of them. -/
theorem split_append {xs ys l₁ l₂ : List α} {x : α} (h : xs ++ ys = l₁ ++ x :: l₂) :
    (∃ l, xs = l₁ ++ x :: l ∧ l₂ = l ++ ys) ∨ ∃ l, l₁ = xs ++ l ∧ ys = l ++ x :: l₂ := by
  rcases List.append_eq_append_iff.mp h with ⟨l, h₁, h₂⟩ | ⟨l, h₁, h₂⟩
  · exact .inr ⟨l, h₁, h₂⟩
  · cases l with
    | nil => exact .inr ⟨[], by simpa using h₁.symm, by simpa using h₂.symm⟩
    | cons y l =>
      simp only [List.cons_append, List.cons.injEq] at h₂
      obtain ⟨rfl, rfl⟩ := h₂
      exact .inl ⟨l, h₁, rfl⟩

/-- Every event of a run is emitted by one of its steps. -/
theorem Run.emitted {tr₁ tr₂ : List ε} {x : ε} (h : M.Run (tr₁ ++ x :: tr₂) s) :
    ∃ tr t es₁ es₂ u, M.Run tr t ∧ M.step t (es₁ ++ x :: es₂) u ∧ tr₁ = tr ++ es₁ := by
  generalize htr : tr₁ ++ x :: tr₂ = tr' at h
  induction h generalizing tr₂ with
  | start => simp at htr
  | @next tr es t u hr hs ih =>
    rcases split_append htr.symm with ⟨l, rfl, _⟩ | ⟨l, rfl, rfl⟩
    · exact ih rfl
    · exact ⟨tr, t, l, tr₂, u, hr, hs, rfl⟩

/-- `Always M P tr s`: a run of `M` that emits `tr`, ends in `s` and satisfies `P` in every
state it passes. -/
inductive Always (M : System σ ε) (P : List ε → σ → Prop) : List ε → σ → Prop
  | start {s : σ} : M.init s → P [] s → Always M P [] s
  | next {tr es : List ε} {s t : σ} : Always M P tr s → M.step s es t → P (tr ++ es) t →
      Always M P (tr ++ es) t

/-- What holds of the runs whose steps meet `C` holds always in them. -/
theorem Run.always {C : σ → List ε → Prop} {P : List ε → σ → Prop} (h : (M.restrict C).Run tr s)
    (inv : ∀ {tr s}, (M.restrict C).Run tr s → P tr s) : M.Always P tr s := by
  induction h with
  | start hi => exact .start hi (inv (.start hi))
  | next hr hs ih => exact .next ih hs.1 (inv (.next hr hs))

/-- Any number of steps, one after the other. -/
inductive Steps (M : System σ ε) : σ → List ε → σ → Prop
  | none (s : σ) : Steps M s [] s
  | more {es fs : List ε} {s t u : σ} : M.step s es t → Steps M t fs u → Steps M s (es ++ fs) u

theorem Steps.one (h : M.step s es t) : M.Steps s es t := by
  simpa using Steps.more h (.none t)

theorem Steps.trans {fs : List ε} {u : σ} (h : M.Steps s es t) (h' : M.Steps t fs u) :
    M.Steps s (es ++ fs) u := by
  induction h with
  | none => exact h'
  | more hs _ ih =>
    rw [List.append_assoc]
    exact .more hs (ih h')

theorem Run.steps (h : M.Run tr s) (hs : M.Steps s es t) : M.Run (tr ++ es) t := by
  induction hs generalizing tr with
  | none => simpa using h
  | more hs _ ih =>
    rw [← List.append_assoc]
    exact ih (.next h hs)

/-- Refinement of runs. Every step of `M` is a number of steps of `N` on the abstracted
states, with the events `N` can see. -/
theorem Run.refine {f : σ → τ} {g : ε → Option δ} (h : M.Run tr s)
    (base : ∀ s, M.init s → N.init (f s))
    (step : ∀ {tr s es t}, M.Run tr s → M.step s es t → N.Steps (f s) (es.filterMap g) (f t)) :
    N.Run (tr.filterMap g) (f s) := by
  induction h with
  | start hi => exact .start (base _ hi)
  | next hr hs ih =>
    rw [List.filterMap_append]
    exact ih.steps (step hr hs)

/-- A system given by a function: the label `α` resolves every choice of the step. -/
def ofNext (init : σ) (next : σ → α → Option (σ × List ε)) : System σ ε where
  init s := s = init
  step s es t := ∃ a, next s a = some (t, es)

/-- Execute a list of labels, collecting what is emitted. -/
def exec (next : σ → α → Option (σ × List ε)) : List α → σ → Option (σ × List ε)
  | [], s => some (s, [])
  | a :: as, s =>
    match next s a with
    | none => none
    | some (t, es) => (exec next as t).map fun r => (r.1, es ++ r.2)

theorem run_exec {init : σ} {next : σ → α → Option (σ × List ε)} :
    ∀ {as : List α} {tr es : List ε} {s t : σ}, (ofNext init next).Run tr s →
      exec next as s = some (t, es) → (ofNext init next).Run (tr ++ es) t
  | [], tr, es, s, t, hr, h => by
    simp only [exec, Option.some.injEq, Prod.mk.injEq] at h
    obtain ⟨rfl, rfl⟩ := h
    simpa using hr
  | a :: as, tr, es, s, t, hr, h => by
    simp only [exec] at h
    cases hn : next s a with
    | none => simp [hn] at h
    | some r =>
      obtain ⟨u, es₁⟩ := r
      simp only [hn, Option.map_eq_some_iff] at h
      obtain ⟨⟨v, es₂⟩, hv, he⟩ := h
      simp only [Prod.mk.injEq] at he
      obtain ⟨rfl, rfl⟩ := he
      rw [← List.append_assoc]
      exact run_exec (.next hr ⟨a, hn⟩) hv

/-- A concrete run from the initial state whose end passes the test `p`. -/
theorem exists_run_of_exec (init : σ) (next : σ → α → Option (σ × List ε)) (as : List α)
    (p : σ × List ε → Bool) (h : (exec next as init).map p = some true) :
    ∃ tr s, (ofNext init next).Run tr s ∧ exec next as init = some (s, tr) ∧ p (s, tr) = true := by
  cases hr : exec next as init with
  | none => simp [hr] at h
  | some r =>
    obtain ⟨s, tr⟩ := r
    simp only [hr, Option.map_some, Option.some.injEq] at h
    exact ⟨tr, s, by simpa using run_exec (.start rfl) hr, rfl, h⟩

/-- The steps of `next` that pass the test `c`. -/
def guarded (next : σ → α → Option (σ × List ε)) (c : σ → List ε → Bool) (s : σ) (a : α) :
    Option (σ × List ε) :=
  (next s a).filter fun r => c s r.2

theorem Run.of_guarded {init : σ} {next : σ → α → Option (σ × List ε)} {c : σ → List ε → Bool}
    {C : σ → List ε → Prop} (hc : ∀ s es, c s es = true → C s es)
    (h : (ofNext init (guarded next c)).Run tr s) : ((ofNext init next).restrict C).Run tr s := by
  induction h with
  | start hi => exact .start hi
  | next _ hs ih =>
    obtain ⟨a, ha⟩ := hs
    obtain ⟨hn, hp⟩ := Option.filter_eq_some_iff.mp ha
    exact .next ih ⟨⟨a, hn⟩, hc _ _ hp⟩

end System
