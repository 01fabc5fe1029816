import Nachos.Threads.Placement

/-!
# Semaphore values and wakeups

`V` wakes a waiter and increments the value, and the waiter tests the value again when
it runs. Another thread may take the unit in between, so what is kept is an inequality:
while a queue is not empty, its value is covered by threads already woken.
-/
namespace Nachos

open Concurrent

variable {S Pc D Ev C : Type} [DecidableEq S] {prog : Program S Pc D Ev C}
  {σ τ : Kernel S Pc D} {tr es : List (KEvent S Ev)} {t : Tid} {s : S}

/-- The calls of `P` on `s` that have returned. -/
def completedP (s : S) (tr : List (KEvent S Ev)) : ℕ :=
  tr.countP fun | .sync (.P _ s') => s' = s | _ => false

/-- The calls of `V` on `s`, by threads and by interrupt handlers. -/
def completedV (s : S) (tr : List (KEvent S Ev)) : ℕ :=
  tr.countP fun | .sync (.V _ s') => s' = s | _ => false

/-- The thread sleeps, or slept, in `P` on `s`. -/
def Resume.waits (s : S) : Resume S Pc → Bool
  | .inP s' _ _ => s' = s
  | _ => false

/-- Threads that a `V` on `s` has taken off the queue and that have not yet tested the
value again: on the ready list, just dispatched, or back at the test. -/
def woken (s : S) (σ : Kernel S Pc D) : ℕ :=
  σ.readyList.countP (fun t => (σ.resume t).waits s) +
    match σ.ctrl with
    | .switched => if (σ.resume σ.currentThread).waits s then 1 else 0
    | .testP s' _ _ true => if s' = s then 1 else 0
    | _ => 0

/-- The value counts the operations, it is not negative, and no wakeup is lost. -/
structure SemaphoreOk (prog : Program S Pc D Ev C) (s : S) (tr : List (KEvent S Ev))
    (σ : Kernel S Pc D) : Prop where
  balance : (σ.sem s).value = prog.value s + completedV s tr - completedP s tr
  nonneg : 0 ≤ (σ.sem s).value
  covered : (σ.sem s).queue ≠ [] → (σ.sem s).value ≤ woken s σ
  awake : 0 < (σ.sem s).value → (σ.sem s).queue ≠ [] → 0 < woken s σ

/-- `value++` does not overflow an `int`. -/
def NoOverflow (s : S) (σ : Kernel S Pc D) (es : List (KEvent S Ev)) : Prop :=
  ∀ t, .sync (.V t s) ∈ es → (σ.sem s).value < 2 ^ 31 - 1

/-- What the induction carries: the value also stays in the range of an `int`. -/
structure SemaphoreInv (prog : Program S Pc D Ev C) (s : S) (tr : List (KEvent S Ev))
    (σ : Kernel S Pc D) : Prop where
  balance : (σ.sem s).value = prog.value s + completedV s tr - completedP s tr
  nonneg : 0 ≤ (σ.sem s).value
  bounded : (σ.sem s).value ≤ 2 ^ 31 - 1
  covered : (σ.sem s).queue ≠ [] → (σ.sem s).value ≤ woken s σ

omit [DecidableEq S] in
/-- Where a thread outside the list is resumed does not matter to the list. -/
theorem countP_update {r : Tid → Resume S Pc} {l : List Tid} {u : Tid} {x : Resume S Pc}
    (p : Resume S Pc → Bool) (hu : u ∉ l) :
    l.countP (fun t => p (Function.update r u x t)) = l.countP (fun t => p (r t)) := by
  apply List.countP_congr
  intro t ht
  rw [Function.update_of_ne (ne_of_mem_of_not_mem ht hu)]

/-- No thread is at its test when a kernel routine returns. -/
theorem woken_setLevel (σ : Kernel S Pc D) (old : IntStatus) :
    woken s (σ.setLevel old) = σ.readyList.countP (fun t => (σ.resume t).waits s) := by
  cases old <;> simp [woken, Kernel.setLevel]

@[simp] theorem completedP_append (tr es : List (KEvent S Ev)) :
    completedP s (tr ++ es) = completedP s tr + completedP s es := List.countP_append

@[simp] theorem completedV_append (tr es : List (KEvent S Ev)) :
    completedV s (tr ++ es) = completedV s tr + completedV s es := List.countP_append

/-- The events say nothing about `s`. -/
def Silent (s : S) (es : List (KEvent S Ev)) : Prop := completedP s es = 0 ∧ completedV s es = 0

/-- A step that leaves this semaphore alone and un-wakes no thread. -/
theorem SemaphoreInv.frame (h : SemaphoreInv prog s tr σ) (hes : Silent s es)
    (hv : (τ.sem s).value = (σ.sem s).value) (hq : (τ.sem s).queue = (σ.sem s).queue)
    (hw : woken s σ ≤ woken s τ) : SemaphoreInv prog s (tr ++ es) τ := by
  constructor
  · simpa [hv, hes.1, hes.2] using h.balance
  · simpa [hv] using h.nonneg
  · simpa [hv] using h.bounded
  · intro hne
    rw [hq] at hne
    rw [hv]
    exact (h.covered hne).trans (by exact_mod_cast hw)

theorem silent_nil : Silent s ([] : List (KEvent S Ev)) := by
  simp [Silent, completedP, completedV]

theorem silent_acts (t : Tid) (es : List Ev) :
    Silent s (es.map fun e => (.sync (.act t e) : KEvent S Ev)) := by
  simp [Silent, completedP, completedV, List.countP_eq_zero]

theorem silent_destroyed (σ : Kernel S Pc D) : Silent s (σ.destroyed : List (KEvent S Ev)) := by
  simp [Silent, completedP, completedV, List.countP_eq_zero, Kernel.destroyed]

theorem completedP_V (σ : Kernel S Pc D) (s s' : S) (t : Option Tid) :
    completedP s (σ.semaphoreVReady s' ++ [(.sync (.V t s') : KEvent S Ev)]) = 0 := by
  cases h : (σ.sem s').queue <;> simp [completedP, Kernel.semaphoreVReady, h]

theorem completedV_V (σ : Kernel S Pc D) (s s' : S) (t : Option Tid) :
    completedV s (σ.semaphoreVReady s' ++ [(.sync (.V t s') : KEvent S Ev)]) =
      if s' = s then 1 else 0 := by
  cases h : (σ.sem s').queue <;> simp [completedV, Kernel.semaphoreVReady, h, List.countP_cons]

omit [DecidableEq S] in
theorem noOverflow_V {s : S} {t : Option Tid}
    (ho : NoOverflow s σ (σ.semaphoreVReady s ++ [(.sync (.V t s) : KEvent S Ev)])) :
    (σ.sem s).value < 2 ^ 31 - 1 := ho t (by simp)

/-- `V` adds a unit and, if some thread waits, a woken thread to cover it. -/
theorem SemaphoreInv.semaphoreV (h : SemaphoreInv prog s tr σ) (hp : Placement tr σ) {s' : S}
    {o : Option Tid}
    (ho : NoOverflow s σ (σ.semaphoreVReady s' ++ [(.sync (.V o s') : KEvent S Ev)]))
    (hready : τ.readyList = (σ.semaphoreV s').readyList) (hresume : τ.resume = σ.resume)
    (hsem : τ.sem = (σ.semaphoreV s').sem)
    (hctrl : (σ.ctrl = .run ∧ (τ.ctrl = .tick ∨ τ.ctrl = .run)) ∨
      ((σ.ctrl = .tick ∨ σ.ctrl = .idle) ∧ τ.ctrl = σ.ctrl)) :
    SemaphoreInv prog s (tr ++ (σ.semaphoreVReady s' ++ [KEvent.sync (.V o s')])) τ := by
  have hw : woken s τ = woken s σ +
      ((σ.sem s').queue.take 1).countP (fun t => (σ.resume t).waits s) := by
    unfold woken
    rw [hready, Kernel.semaphoreV_readyList, hresume, List.countP_append]
    rcases hctrl with ⟨h1, h2 | h2⟩ | ⟨h1 | h1, h2⟩ <;> simp [h1, h2]
  by_cases hs : s' = s
  · subst hs
    have hval : (τ.sem s').value = (σ.sem s').value + 1 := by
      rw [hsem]
      simpa using incr_eq (by have := h.nonneg; omega) (noOverflow_V ho)
    have hque : (τ.sem s').queue = (σ.sem s').queue.tail := by simp [hsem]
    constructor
    · rw [hval, completedP_append, completedV_append, completedP_V, completedV_V]
      have := h.balance
      simp
      omega
    · have := h.nonneg
      omega
    · have := noOverflow_V ho
      omega
    · intro hne
      rw [hval, hw]
      rw [hque] at hne
      cases hl : (σ.sem s').queue with
      | nil => simp [hl] at hne
      | cons t q =>
        obtain ⟨_, _, k, old, hres⟩ := hp.queued s' t (by simp [hl])
        have hc := h.covered (by simp [hl])
        simp [hres, Resume.waits]
        omega
  · refine h.frame ⟨completedP_V _ _ _ _, ?_⟩ (by simp [hsem, Ne.symm hs])
      (by simp [hsem, Ne.symm hs]) (by omega)
    rw [completedV_V, if_neg hs]

/-- A thread that tests the value and finds a unit takes it, whether it was woken or has
just arrived. -/
theorem SemaphoreInv.pass (h : SemaphoreInv prog s tr σ) {s' : S} {k : Pc} {old : IntStatus}
    {w : Bool} (hr : σ.ctrl = .testP s' k old w) (hv : (σ.sem s').value ≠ 0) :
    SemaphoreInv prog s (tr ++ [.sync (.P σ.currentThread s')])
      (Kernel.setLevel
        { σ with
          sem := Function.update σ.sem s' ⟨decr (σ.sem s').value, (σ.sem s').queue⟩
          pc := Function.update σ.pc σ.currentThread k } old) := by
  have hw : woken s σ ≤ woken s (Kernel.setLevel
      { σ with
        sem := Function.update σ.sem s' ⟨decr (σ.sem s').value, (σ.sem s').queue⟩
        pc := Function.update σ.pc σ.currentThread k } old) + if s' = s then 1 else 0 := by
    unfold woken
    cases old <;> cases w <;> simp [hr, Kernel.setLevel]
  by_cases hs : s' = s
  · subst hs
    have hpos : 0 < (σ.sem s').value := lt_of_le_of_ne h.nonneg (Ne.symm hv)
    have hval : decr (σ.sem s').value = (σ.sem s').value - 1 :=
      decr_eq (by omega) h.bounded
    constructor
    · have := h.balance
      simp [hval, completedP, completedV] at this ⊢
      omega
    · simp [hval]
      omega
    · have := h.bounded
      simp [hval]
      omega
    · intro hne
      have := h.covered (by simpa using hne)
      simp [hval] at hw ⊢
      omega
  · refine h.frame ?_ (by simp [Ne.symm hs]) (by simp [Ne.symm hs]) (by simpa [hs] using hw)
    simp [Silent, completedP, completedV, hs]

/-- A thread goes to sleep only at value zero, which any number of woken threads covers. -/
theorem SemaphoreInv.block (h : SemaphoreInv prog s tr σ) (hp : Placement tr σ) {s' : S} {k : Pc}
    {old : IntStatus} {w : Bool} (hr : σ.ctrl = .testP s' k old w)
    (hv : (σ.sem s').value = 0) :
    SemaphoreInv prog s (tr ++ [])
      { σ with
        sem := Function.update σ.sem s'
          ⟨(σ.sem s').value, (σ.sem s').queue ++ [σ.currentThread]⟩
        status := Function.update σ.status σ.currentThread .BLOCKED
        resume := Function.update σ.resume σ.currentThread (.inP s' k old)
        ctrl := .sleep } := by
  have hn := (hp.current_not_listed (by simp [hr])).1
  by_cases hs : s' = s
  · subst hs
    constructor
    · simpa using h.balance
    · simp [hv]
    · simp [hv]
    · intro _
      simp [hv]
  · refine h.frame silent_nil (by simp [Ne.symm hs]) (by simp [Ne.symm hs]) ?_
    have hc := countP_update (r := σ.resume) (x := .inP s' k old) (Resume.waits s) hn
    cases w <;> simp [woken, hr, hc, hs]

theorem semaphoreInv_step (hs : Kernel.Step prog σ es τ) (hp : Placement tr σ)
    (ho : NoOverflow s σ es) (h : SemaphoreInv prog s tr σ) :
    SemaphoreInv prog s (tr ++ es) τ := by
  cases hs with
  | enterP hr hc | tick hr hc | idle hr he | endIdle hr | endTick hr =>
    exact h.frame silent_nil rfl rfl (by simp [woken, hr])
  | act hr hc hf => exact h.frame (silent_acts _ _) rfl rfl (by simp [woken, hr])
  | V hr hc =>
    exact h.semaphoreV hp ho (by simp) (by simp) (by simp) (.inl ⟨hr, Kernel.setLevel_ctrl _ _⟩)
  | handlerV hr hd => exact h.semaphoreV hp ho (by simp) (by simp) (by simp) (.inr ⟨hr, by simp⟩)
  | handler hr b =>
    refine h.frame silent_nil rfl rfl ?_
    rcases hr with hr | hr <;> simp [woken, hr]
  | block hr hv => exact h.block hp hr hv
  | pass hr hv => exact h.pass hr hv
  | fork hr hc =>
    refine h.frame (by simp [Silent, completedP, completedV]) (by simp [Kernel.fork])
      (by simp [Kernel.fork]) ?_
    have hn := hp.next_not_listed.1
    have hc := countP_update (r := σ.resume) (x := .threadRoot) (Resume.waits s) hn
    rw [Kernel.fork, woken_setLevel]
    simp [woken, hr, List.countP_append, hc]
  | finish hr hc =>
    refine h.frame (by simp [Silent, completedP, completedV]) rfl rfl ?_
    have hn := (hp.current_not_listed (by simp [hr])).1
    have hc := countP_update (r := σ.resume) (x := .inFinish) (Resume.waits s) hn
    simp [woken, hr, hc]
  | yieldStay hr he hpc b old =>
    refine h.frame silent_nil (by simp) (by simp) ?_
    rcases hr with hr | hr <;> simp [woken, hr, he]
  | @yieldSwitch _ next rest hr he hpc b old =>
    refine h.frame (by simp [Silent, completedP, completedV]) (by simp) (by simp) ?_
    have hn : σ.currentThread ∉ next :: rest := by
      rw [← he]
      exact (hp.current_not_listed (by rcases hr with hr | hr <;> simp [hr])).1
    simp only [List.mem_cons, not_or] at hn
    have hc := countP_update (r := σ.resume) (x := .inYield old) (Resume.waits s) hn.2
    rcases hr with hr | hr <;>
      simp [woken, hr, he, List.countP_append, List.countP_cons, hc, Ne.symm hn.1]
  | wake hr he =>
    refine h.frame (by simp [Silent, completedP, completedV]) rfl rfl ?_
    simp [woken, hr, he, List.countP_cons]
  | root hr hc => exact h.frame silent_nil (by simp) (by simp) (by simp [woken, hr, hc, Resume.waits])
  | backInYield hr hc =>
    exact h.frame (silent_destroyed σ) (by simp) (by simp) (by simp [woken, hr, hc, Resume.waits])
  | backInP hr hc =>
    exact h.frame (silent_destroyed σ) rfl rfl (by simp [woken, hr, hc, Resume.waits])

theorem SemaphoreInv.ok (h : SemaphoreInv prog s tr σ) : SemaphoreOk prog s tr σ where
  balance := h.balance
  nonneg := h.nonneg
  covered := h.covered
  awake hv hq := by have := h.covered hq; omega

theorem semaphoreInv_run (h0 : 0 ≤ prog.value s) (h1 : prog.value s ≤ 2 ^ 31 - 1)
    (h : ((kernel prog).restrict (NoOverflow s)).Run tr σ) : SemaphoreInv prog s tr σ := by
  refine h.invariant ?_ ?_
  · rintro σ rfl
    exact ⟨by simp [Kernel.boot, completedP, completedV], h0, h1, by simp [Kernel.boot]⟩
  · intro tr σ es τ hr hi hs
    exact semaphoreInv_step (Kernel.step_of_kernel hs.1) (placement_run hr.of_restrict) hs.2 hi

/-- At the largest `int` a `V` makes the value negative. -/
theorem overflow_negative (hs : Kernel.Step prog σ es τ) (hv : (σ.sem s).value = 2 ^ 31 - 1)
    {o : Option Tid} (he : .sync (.V o s) ∈ es) : (τ.sem s).value < 0 := by
  have hmem : ∀ s', KEvent.sync (.V o s) ∉ (σ.semaphoreVReady s' : List (KEvent S Ev)) := by
    intro s'
    cases h : (σ.sem s').queue <;> simp [Kernel.semaphoreVReady, h]
  cases hs <;> simp [Kernel.destroyed, hmem] at he
  all_goals
    obtain ⟨_, rfl⟩ := he
    simp only [Kernel.setLevel_sem, Kernel.semaphoreV_sem, Function.update_self, hv, incr_max]
    norm_num

/-- In every run in which no `V` on `s` finds the value at the largest `int`, the value is
the initial one plus the `V` calls minus the completed `P` calls, it is never negative, and
no wakeup is lost. A `V` at that value is exactly what breaks this. -/
theorem semaphore_correct (h0 : 0 ≤ prog.value s) (h1 : prog.value s ≤ 2 ^ 31 - 1)
    (h : ((kernel prog).restrict (NoOverflow s)).Run tr σ) :
    SemaphoreOk prog s tr σ ∧ ∀ es τ, (kernel prog).step σ es τ →
      (SemaphoreOk prog s (tr ++ es) τ ↔ NoOverflow s σ es) := by
  have hi := semaphoreInv_run h0 h1 h
  refine ⟨hi.ok, fun es τ hs => ⟨?_, ?_⟩⟩
  · intro hok o he
    by_contra hv
    have hmax : (σ.sem s).value = 2 ^ 31 - 1 := by
      have := hi.bounded
      omega
    have := overflow_negative (Kernel.step_of_kernel hs) hmax he
    have := hok.nonneg
    omega
  · intro ho
    exact (semaphoreInv_step (Kernel.step_of_kernel hs) (placement_run h.of_restrict) ho hi).ok

/-- The child has woken its parent, which has not tested the value again yet. -/
theorem semaphore_correct_handOff : ∃ tr σ,
    ((kernel handOff).restrict (NoOverflow ())).Run tr σ ∧ SemaphoreOk handOff () tr σ ∧
      (σ.sem ()).value = 1 ∧ woken () σ = 1 := by
  obtain ⟨tr, σ, hr, _, hp⟩ := System.exists_run_of_exec (Kernel.boot handOff)
    (System.guarded (Kernel.next handOff)
      (fun σ _ => decide ((σ.sem ()).value < 2 ^ 31 - 1)))
    (List.replicate 8 (.cpu ()))
    (fun r => decide ((r.1.sem ()).value = 1 ∧ woken () r.1 = 1)) (by decide +kernel)
  have hr : ((kernel handOff).restrict (NoOverflow ())).Run tr σ :=
    hr.of_guarded fun σ es hc _ _ => of_decide_eq_true hc
  have hp := of_decide_eq_true hp
  exact ⟨tr, σ, hr, (semaphore_correct (by decide) (by decide) hr).1, hp.1, hp.2⟩

/-- A semaphore created with the largest `int`, and one `V`. -/
def signalAtMax : Program Unit ℕ Unit Unit Unit where
  code _ pc :=
    match pc with
    | 0 => .V () 1
    | _ => .finish
  value _ := 2 ^ 31 - 1
  start := 0
  data := ()
  device _ := false
  switchOut _ d := d
  switchIn _ d := d
  interrupt d := d

theorem semaphore_incorrect_at_max : 0 ≤ signalAtMax.value () ∧
    ∃ tr σ, (kernel signalAtMax).Run tr σ ∧ ¬ SemaphoreOk signalAtMax () tr σ := by
  refine ⟨by decide, ?_⟩
  obtain ⟨tr, σ, hr, _, hp⟩ := System.exists_run_of_exec (Kernel.boot signalAtMax)
    (Kernel.next signalAtMax) [.cpu ()]
    (fun r => decide ((r.1.sem ()).value < 0)) (by decide +kernel)
  refine ⟨tr, σ, hr, fun hok => ?_⟩
  exact absurd hok.nonneg (not_le.mpr (of_decide_eq_true hp))

end Nachos
