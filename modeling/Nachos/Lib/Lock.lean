import Nachos.Lib.Concurrent

/-!
# A semaphore used as a lock

The code calls `P` on it only outside a set of control points, `V` only inside, and
crosses the border in no other way. That is a check of each instruction by itself; what
follows is mutual exclusion, in every interleaving.
-/
namespace Concurrent

variable {S Pc D Ev C : Type} [DecidableEq S] {prog : Program S Pc D Ev C} {s : S}
  {inside : Pc → Bool} {a b : State S Pc D} {tr es : List (Event S Ev)} {t u : Tid}

/-- An instruction at `pc` enters only by `P s` and leaves only by `V s`. -/
def Instr.Brackets (s : S) (inside : Pc → Bool) (pc : Pc) : Instr S Pc D Ev C → Prop
  | .P s' k => if s' = s then inside pc = false ∧ inside k = true else inside k = inside pc
  | .V s' k => if s' = s then inside pc = true ∧ inside k = false else inside k = inside pc
  | .yield k | .tick k => inside k = inside pc
  | .fork child k _ => inside child = false ∧ ∀ u, inside (k u) = inside pc
  | .act f => ∀ c d k d' es, f c d = some (k, d', es) → inside k = inside pc
  | .finish | .stop => True

/-- `s` starts at one, no handler touches it, and all code brackets it. -/
structure Program.Lock (prog : Program S Pc D Ev C) (s : S) (inside : Pc → Bool) : Prop where
  value : prog.value s = 1
  start : inside prog.start = false
  device : prog.device s = false
  code : ∀ t pc, (prog.code t pc).Brackets s inside pc

/-- The calls of `P` on `s` that `t` has completed. -/
def acquired (s : S) (t : Tid) (tr : List (Event S Ev)) : ℕ :=
  tr.countP fun | .P t' s' => t' = t ∧ s' = s | _ => false

/-- The calls of `V` on `s` by `t`. -/
def released (s : S) (t : Tid) (tr : List (Event S Ev)) : ℕ :=
  tr.countP fun | .V t' s' => t' = some t ∧ s' = s | _ => false

@[simp] theorem acquired_append (tr es : List (Event S Ev)) :
    acquired s t (tr ++ es) = acquired s t tr + acquired s t es := List.countP_append

@[simp] theorem released_append (tr es : List (Event S Ev)) :
    released s t (tr ++ es) = released s t tr + released s t es := List.countP_append

@[simp] theorem acquired_acts (es : List Ev) : acquired s t (es.map (.act u)) = 0 := by
  simp [acquired, List.countP_eq_zero]

@[simp] theorem released_acts (es : List Ev) : released s t (es.map (.act u)) = 0 := by
  simp [released, List.countP_eq_zero]

/-- Whether `t` holds the lock, by where it is in its code. -/
def Holds (inside : Pc → Bool) (a : State S Pc D) (t : Tid) : Prop :=
  t < a.nextTid ∧ inside (a.pc t) = true

instance : Decidable (Holds inside a t) := inferInstanceAs (Decidable (_ ∧ _))

/-- The lock is free and nobody is inside, or it is taken and one thread is. Whoever is
inside has acquired it once more often than released it. -/
structure Exclusive (s : S) (inside : Pc → Bool) (tr : List (Event S Ev)) (a : State S Pc D) :
    Prop where
  value : (a.value s = 1 ∧ ∀ t, ¬Holds inside a t) ∨ (a.value s = 0 ∧ ∃ t, Holds inside a t)
  unique : ∀ t u, Holds inside a t → Holds inside a u → t = u
  balance : ∀ t, acquired s t tr = released s t tr + if Holds inside a t then 1 else 0

/-- Steps that neither use the lock nor cross the border. -/
theorem Exclusive.frame (h : Exclusive s inside tr a) (hv : b.value s = a.value s)
    (hh : ∀ t, Holds inside b t ↔ Holds inside a t) (ha : ∀ t, acquired s t es = 0)
    (hr : ∀ t, released s t es = 0) : Exclusive s inside (tr ++ es) b where
  value := by simpa only [hv, hh] using h.value
  unique := by simpa only [hh] using h.unique
  balance := by simpa [hh, ha, hr] using h.balance

omit [DecidableEq S] in
/-- Moving one thread along its own side of the border. -/
theorem holds_goto {k : Pc} (hk : inside k = inside (a.pc t)) :
    Holds inside (a.goto t k) u ↔ Holds inside a u := by
  by_cases hu : u = t
  · subst hu
    simp [Holds, hk]
  · simp [Holds, hu]

theorem exclusive_step (hl : prog.Lock s inside) (hs : Step prog a es b)
    (h : Exclusive s inside tr a) : Exclusive s inside (tr ++ es) b := by
  cases hs with
  | @P t s' k ht hc hv =>
    have hb := hl.code t (a.pc t)
    rw [hc] at hb
    simp only [Instr.Brackets] at hb
    by_cases hs : s' = s
    · subst hs
      simp only [if_true] at hb
      -- the value was one, so nobody was inside
      have h1 : a.value s' = 1 ∧ ∀ t, ¬Holds inside a t :=
        h.value.resolve_right fun h0 => hv h0.1
      have hh : ∀ u, Holds inside ((a.setValue s' (decr (a.value s'))).goto t k) u ↔ u = t := by
        intro u
        by_cases hu : u = t
        · subst hu
          simp [Holds, ht, hb.2]
        · simpa [Holds, hu] using h1.2 u
      refine ⟨.inr ⟨by simp [h1.1, decr], t, (hh t).mpr rfl⟩, ?_, ?_⟩
      · intro u w hu hw
        rw [(hh u).mp hu, (hh w).mp hw]
      · intro u
        have := h.balance u
        rw [if_neg (h1.2 u)] at this
        simp only [hh, acquired_append, released_append, this]
        by_cases hu : t = u
        · simp [acquired, released, hu]
        · simp [acquired, released, hu, Ne.symm hu]
    · simp only [hs, if_false] at hb
      refine h.frame (by simp [Ne.symm hs]) (fun u => holds_goto (by simpa using hb)) ?_ ?_ <;>
        simp [acquired, released, hs]
  | @V t s' k ht hc =>
    have hb := hl.code t (a.pc t)
    rw [hc] at hb
    simp only [Instr.Brackets] at hb
    by_cases hs : s' = s
    · subst hs
      simp only [if_true] at hb
      -- the thread holds the lock itself, and nobody else does
      have hh : Holds inside a t := ⟨ht, hb.1⟩
      have h0 : a.value s' = 0 := by
        rcases h.value with h1 | h1
        · exact absurd hh (h1.2 t)
        · exact h1.1
      have hn : ∀ u, ¬Holds inside ((a.setValue s' (incr (a.value s'))).goto t k) u := by
        intro u hu
        by_cases hut : u = t
        · subst hut
          simp [Holds, hb.2] at hu
        · exact hut (h.unique u t (by simpa [Holds, hut] using hu) hh)
      refine ⟨.inl ⟨by simp [h0, incr], hn⟩, fun u w hu => absurd hu (hn u), ?_⟩
      intro u
      have := h.balance u
      simp only [hn, if_false, acquired_append, released_append, this]
      by_cases hu : t = u
      · subst hu
        simp [hh, acquired, released]
      · have : ¬Holds inside a u := fun hw => hu (h.unique t u hh hw)
        simp [this, acquired, released, hu]
    · simp only [hs, if_false] at hb
      refine h.frame (by simp [Ne.symm hs]) (fun u => holds_goto (by simpa using hb)) ?_ ?_ <;>
        simp [acquired, released, hs]
  | @handler s' hd =>
    have hs : s' ≠ s := by
      rintro rfl
      simp [hl.device] at hd
    refine h.frame (by simp [Ne.symm hs]) (fun u => Iff.rfl) ?_ ?_ <;> simp [acquired, released]
  | @yield t k ht hc =>
    have hb := hl.code t (a.pc t)
    have hk : inside k = inside (a.pc t) := by
      rcases hc with hc | hc <;> (rw [hc] at hb; exact hb)
    exact h.frame rfl (fun u => holds_goto hk) (by simp [acquired]) (by simp [released])
  | @fork t child k setup ht hc =>
    have hb := hl.code t (a.pc t)
    rw [hc] at hb
    simp only [Instr.Brackets] at hb
    refine h.frame rfl (fun u => ?_) (by simp [acquired]) (by simp [released])
    by_cases hut : u = t
    · subst hut
      simp [Holds, hb.2, ht, Nat.lt_succ_of_lt ht]
    · by_cases hun : u = a.nextTid
      · subst hun
        simp [Holds, hut, hb.1]
      · have : u < a.nextTid + 1 ↔ u < a.nextTid :=
          ⟨fun h => lt_of_le_of_ne (Nat.lt_succ_iff.mp h) hun, Nat.lt_succ_of_lt⟩
        simp [Holds, hut, hun, this]
  | @act t f c k d es ht hc hf =>
    have hb := hl.code t (a.pc t)
    rw [hc] at hb
    exact h.frame rfl (fun u => holds_goto (hb c _ k d es hf)) (by simp) (by simp)
  | hook hd => exact h.frame rfl (fun u => Iff.rfl) (by simp [acquired]) (by simp [released])

/-- A semaphore used as a lock excludes, in every run. -/
theorem exclusive_run (hl : prog.Lock s inside) (h : (atomic prog).Run tr a) :
    Exclusive s inside tr a := by
  refine h.invariant ?_ ?_
  · rintro a rfl
    have hn : ∀ t, ¬Holds inside prog.initial t := by
      intro t ht
      have := ht.2
      simp [Program.initial, hl.start] at this
    exact ⟨.inl ⟨hl.value, hn⟩, fun t u ht => absurd ht (hn t), by simp [hn, acquired, released]⟩
  · intro tr a es b _ hi hs
    exact exclusive_step hl hs hi

end Concurrent
