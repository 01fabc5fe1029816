import Nachos.Lib.System
import Mathlib.Algebra.Ring.Nat
import Mathlib.Data.Nat.Find
import Mathlib.Data.List.Iterate

/-!
# Waiting in line

Infinite runs of a transition system, and a queue along one: those at the front leave, and others
come at the back. If the queue is served again and again, everyone in it leaves, after those who
were in front and nobody else.
-/

namespace System

variable {σ ε : Type*} {M : System σ ε}

/-- An infinite run. -/
structure Path (M : System σ ε) where
  state : ℕ → σ
  events : ℕ → List ε
  init : M.init (state 0)
  step : ∀ n, M.step (state n) (events n) (state (n + 1))

/-- What comes in the steps from `m` up to `n`. -/
def during {α : Type*} (f : ℕ → List α) (m n : ℕ) : List α :=
  (List.range' m (n - m)).flatMap f

section

variable {α : Type*} {f : ℕ → List α} {l m n : ℕ}

theorem during_self (f : ℕ → List α) (n : ℕ) : during f n n = [] := by
  simp [during]

theorem during_append (hlm : l ≤ m) (hmn : m ≤ n) :
    during f l n = during f l m ++ during f m n := by
  obtain ⟨i, rfl⟩ := Nat.exists_eq_add_of_le hlm
  obtain ⟨j, rfl⟩ := Nat.exists_eq_add_of_le hmn
  have hsplit : List.range' l (i + j) = List.range' l i ++ List.range' (l + i) j := by
    rw [← List.range'_append, one_mul]
  simp only [during, show l + i + j - l = i + j by omega, Nat.add_sub_cancel_left, hsplit,
    List.flatMap_append]

theorem during_succ (hmn : m ≤ n) : during f m (n + 1) = during f m n ++ f n := by
  rw [during_append hmn (Nat.le_succ n)]
  simp [during]

theorem during_eq_nil (h : ∀ k, m ≤ k → k < n → f k = []) : during f m n = [] := by
  rw [during, List.flatMap_eq_nil_iff]
  intro k hk
  rw [List.mem_range'_1] at hk
  exact h k hk.1 (by omega)

end

/-- The finite runs of an infinite one. -/
theorem Path.run (p : Path M) (n : ℕ) : M.Run (during p.events 0 n) (p.state n) := by
  induction n with
  | zero =>
    rw [during_self]
    exact .start p.init
  | succ n ih =>
    rw [during_succ (Nat.zero_le n)]
    exact .next ih (p.step n)

section

variable {α : Type*} {f : σ → σ} {s : σ} {i k : ℕ}

/-- A run in which every label is the same. -/
def Path.ofIterate (init : σ) (next : σ → α → Option (σ × List ε)) (a : α) (f : σ → σ)
    (h : ∀ n, (next (f^[n] init) a).map Prod.fst = some (f^[n + 1] init)) :
    Path (ofNext init next) where
  state n := f^[n] init
  events n := ((next (f^[n] init) a).map Prod.snd).getD []
  init := rfl
  step n := by
    obtain ⟨⟨t, es⟩, hnext, rfl⟩ := Option.map_eq_some_iff.mp (h n)
    exact ⟨a, by rw [hnext]; rfl⟩

/-- One that comes back to a state does so again and again. -/
theorem iterate_recurs (hk : 0 < k) (h : f^[i + k] s = f^[i] s) (n : ℕ) :
    ∃ m, n ≤ m ∧ f^[m] s = f^[i] s := by
  induction n with
  | zero => exact ⟨i, Nat.zero_le i, rfl⟩
  | succ n ih =>
    obtain ⟨m, hnm, hm⟩ := ih
    refine ⟨k + m, by omega, ?_⟩
    rw [Function.iterate_add_apply, hm, ← Function.iterate_add_apply, Nat.add_comm k i, h]

/-- It passes no other states than those until then. -/
theorem iterate_before (hk : 0 < k) (h : f^[i + k] s = f^[i] s) (n : ℕ) :
    ∃ j, j < i + k ∧ f^[n] s = f^[j] s := by
  induction n with
  | zero => exact ⟨0, by omega, rfl⟩
  | succ n ih =>
    obtain ⟨j, hj, hn⟩ := ih
    rw [Function.iterate_succ_apply', hn, ← Function.iterate_succ_apply' f]
    by_cases hlast : j + 1 = i + k
    · exact ⟨i, by omega, by rw [show j.succ = i + k from hlast, h]⟩
    · exact ⟨j + 1, by omega, rfl⟩

end

/-! ## Queues -/

section

variable {α : Type*} {line leave : ℕ → List α} {front back rest : List α} {x y : α} {m n : ℕ}

/-- At each step one may leave, who was the first, and others may come. -/
def Queue (line leave : ℕ → List α) : Prop :=
  ∀ n, (leave n).length ≤ 1 ∧ ∃ come, line n ++ come = leave n ++ line (n + 1)

/-- While nobody leaves, the line stays. -/
theorem Queue.stay (hq : Queue line leave) (hmn : m ≤ n)
    (h : ∀ k, m ≤ k → k < n → leave k = []) : ∃ come, line n = line m ++ come := by
  induction n, hmn using Nat.le_induction with
  | base => exact ⟨[], (List.append_nil _).symm⟩
  | succ n hmn ih =>
    obtain ⟨come, hline⟩ := ih fun k hk hkn => h k hk (Nat.lt_succ_of_lt hkn)
    obtain ⟨-, come', hstep⟩ := hq n
    rw [h n hmn (Nat.lt_succ_self n), List.nil_append, hline, List.append_assoc] at hstep
    exact ⟨come ++ come', hstep.symm⟩

/-- Whoever is in line at some time, somebody leaves later. -/
theorem Queue.moves (hq : Queue line leave)
    (hserve : ∀ n, ∃ m, n ≤ m ∧ (line m ≠ [] → ∃ k, m ≤ k ∧ leave k ≠ []))
    (hn : line n ≠ []) : ∃ m, n ≤ m ∧ leave m ≠ [] := by
  obtain ⟨m, hnm, hm⟩ := hserve n
  by_cases hstay : ∀ k, n ≤ k → k < m → leave k = []
  · obtain ⟨come, hline⟩ := hq.stay hnm hstay
    obtain ⟨k, hmk, hk⟩ := hm (by simp [hline, hn])
    exact ⟨k, Nat.le_trans hnm hmk, hk⟩
  · push Not at hstay
    obtain ⟨k, hnk, -, hk⟩ := hstay
    exact ⟨k, hnk, hk⟩

/-- The first one in line leaves, and nobody before. -/
theorem Queue.first (hq : Queue line leave)
    (hserve : ∀ n, ∃ m, n ≤ m ∧ (line m ≠ [] → ∃ k, m ≤ k ∧ leave k ≠ []))
    (hn : line n = y :: rest) : ∃ m, n ≤ m ∧ leave m = [y] ∧ during leave n (m + 1) = [y] ∧
      ∃ come, line (m + 1) = rest ++ come := by
  classical
  have hleaves := hq.moves hserve (n := n) (by simp [hn])
  obtain ⟨hnm, hm⟩ := Nat.find_spec hleaves
  have hmin := fun k hk => Nat.find_min hleaves (m := k) hk
  generalize Nat.find hleaves = m at *
  have hbefore : ∀ k, n ≤ k → k < m → leave k = [] := by
    intro k hnk hkm
    by_contra hk
    exact hmin k hkm ⟨hnk, hk⟩
  obtain ⟨come, hline⟩ := hq.stay hnm hbefore
  obtain ⟨hone, come', hstep⟩ := hq m
  obtain ⟨z, hz⟩ := List.length_eq_one_iff.mp
    (le_antisymm hone (List.length_pos_iff.mpr hm))
  rw [hz, hline, hn] at hstep
  simp only [List.cons_append, List.nil_append, List.cons.injEq, List.append_assoc] at hstep
  obtain ⟨rfl, hrest⟩ := hstep
  refine ⟨m, hnm, hz, ?_, _, hrest.symm⟩
  rw [during_succ hnm, during_eq_nil hbefore, hz, List.nil_append]

/-- Everyone in line leaves, after those in front. By induction on these. -/
theorem Queue.served (hq : Queue line leave)
    (hserve : ∀ n, ∃ m, n ≤ m ∧ (line m ≠ [] → ∃ k, m ≤ k ∧ leave k ≠ []))
    (hn : line n = front ++ x :: back) :
    ∃ m, n ≤ m ∧ leave m = [x] ∧ during leave n (m + 1) = front ++ [x] := by
  induction front generalizing n back with
  | nil =>
    obtain ⟨m, hnm, hm, hduring, -⟩ := hq.first hserve hn
    exact ⟨m, hnm, hm, hduring⟩
  | cons y front ih =>
    obtain ⟨m, hnm, -, hduring, come, hline⟩ := hq.first hserve (List.cons_append ▸ hn)
    rw [List.append_assoc, List.cons_append] at hline
    obtain ⟨m', hmm, hm', hduring'⟩ := ih hline
    refine ⟨m', by omega, hm', ?_⟩
    rw [during_append (m := m + 1) (by omega) (by omega), hduring, hduring']
    rfl

end

end System
