import Nachos.Threads.Placement

/-!
# The thread system implements atomic semaphores

Forget the processor, the queues and the interrupt level, and a run under the thread
system is a run of the same program under the atomic semantics. What a program keeps
invariant there, it keeps here.
-/
namespace Nachos

open Concurrent

variable {S Pc D Ev C : Type} {prog : Program S Pc D Ev C}
  {σ τ : Kernel S Pc D} {tr es : List (KEvent S Ev)} {t : Tid} {s : S}

/-- What the atomic semantics knows of a state. -/
def Kernel.atomically (σ : Kernel S Pc D) : State S Pc D where
  value s := (σ.sem s).value
  pc := σ.pc
  nextTid := σ.nextTid
  data := σ.data

/-- What it knows of an event. -/
def KEvent.sync? : KEvent S Ev → Option (Event S Ev)
  | .sync e => some e
  | _ => none

/-- The visible part of a trace. -/
def synced (tr : List (KEvent S Ev)) : List (Event S Ev) := tr.filterMap KEvent.sync?

@[simp] theorem synced_append (tr es : List (KEvent S Ev)) :
    synced (tr ++ es) = synced tr ++ synced es := List.filterMap_append

@[simp] theorem mem_synced {e : Event S Ev} : e ∈ synced tr ↔ .sync e ∈ tr := by
  simp only [synced, List.mem_filterMap]
  constructor
  · rintro ⟨a, ha, he⟩
    cases a <;> simp_all [KEvent.sync?]
  · exact fun h => ⟨_, h, rfl⟩

@[simp] theorem synced_nil : synced ([] : List (KEvent S Ev)) = [] := rfl

@[simp] theorem synced_acts (t : Tid) (es : List Ev) :
    synced (es.map fun e => (.sync (.act t e) : KEvent S Ev)) = es.map (.act t) := by
  simp [synced, List.filterMap_map, Function.comp_def, KEvent.sync?]

@[simp] theorem synced_destroyed (σ : Kernel S Pc D) :
    synced (σ.destroyed : List (KEvent S Ev)) = [] := by
  cases h : σ.threadToBeDestroyed <;> simp [synced, Kernel.destroyed, h, KEvent.sync?]

@[simp] theorem synced_V (σ : Kernel S Pc D) (s : S) (t : Option Tid) :
    synced (σ.semaphoreVReady s ++ [(.sync (.V t s) : KEvent S Ev)]) = [.V t s] := by
  cases h : (σ.sem s).queue <;> simp [synced, Kernel.semaphoreVReady, h, KEvent.sync?, List.filterMap_cons]

/-- A thread inside `P`, awake or asleep, has not moved from that call in its own code. -/
structure AtCall (prog : Program S Pc D Ev C) (σ : Kernel S Pc D) : Prop where
  testing : ∀ s k old w, σ.ctrl = .testP s k old w →
    prog.code σ.currentThread (σ.pc σ.currentThread) = .P s k
  sleeping : ∀ t s k old, σ.resume t = .inP s k old →
    (t ≠ σ.currentThread ∨ σ.ctrl.asleep = true ∨ σ.ctrl = .switched) →
    prog.code t (σ.pc t) = .P s k

/-- Steps that save no context and leave the code of every other thread alone. -/
theorem AtCall.frame (h : AtCall prog σ) (hcur : τ.currentThread = σ.currentThread)
    (hresume : τ.resume = σ.resume) (hpc : ∀ t ≠ σ.currentThread, τ.pc t = σ.pc t)
    (htest : ∀ s k old w, τ.ctrl ≠ .testP s k old w)
    (hctrl : τ.ctrl.asleep = false ∧ τ.ctrl ≠ .switched) : AtCall prog τ := by
  refine ⟨fun s k old w hw => absurd hw (htest s k old w), ?_⟩
  intro t s k old hr ht
  rw [hresume] at hr
  simp only [hctrl, hcur, Bool.false_eq_true, or_false] at ht
  rw [hpc t ht]
  exact h.sleeping t s k old hr (.inl ht)

/-- The two control states in which a kernel routine returns. -/
theorem setLevel_returns (σ : Kernel S Pc D) (old : IntStatus) :
    (∀ s k o w, (σ.setLevel old).ctrl ≠ .testP s k o w) ∧
    (σ.setLevel old).ctrl.asleep = false ∧ (σ.setLevel old).ctrl ≠ .switched := by
  cases old <;> simp [Kernel.setLevel]

variable [DecidableEq S]

theorem atCall_step (hs : Kernel.Step prog σ es τ) (hp : Placement tr σ) (h : AtCall prog σ) :
    AtCall prog τ := by
  cases hs with
  | enterP hr hc =>
    refine ⟨?_, ?_⟩
    · intro s k old w hw
      simp only [Ctrl.testP.injEq] at hw
      obtain ⟨rfl, rfl, -, -⟩ := hw
      exact hc
    · intro t s k old hres ht
      simp only [asleep_testP, Bool.false_eq_true, reduceCtorEq, or_false] at ht
      exact h.sleeping t s k old hres (.inl ht)
  | V hr hc =>
    obtain ⟨h1, h2⟩ := setLevel_returns { σ.semaphoreV _ with
      pc := Function.update σ.pc σ.currentThread _ } σ.level
    exact h.frame (by simp) (by simp) (fun t ht => by simp [ht]) h1 h2
  | tick hr hc =>
    exact h.frame rfl rfl (fun t ht => by simp [ht]) (by simp) (by simp)
  | @fork child k setup hr hc =>
    have hn : σ.nextTid ≠ σ.currentThread := hp.current.ne'
    refine ⟨fun s k' old w hw => absurd hw ((setLevel_returns _ _).1 s k' old w), ?_⟩
    intro t s k' old hres ht
    have hf : (σ.fork child k setup).ctrl.asleep = false ∧
        (σ.fork child k setup).ctrl ≠ .switched := (setLevel_returns _ _).2
    simp only [hf, Bool.false_eq_true, or_false] at ht
    simp only [Kernel.fork, Kernel.setLevel_resume, Kernel.readyToRun_resume,
      Kernel.setLevel_currentThread, Kernel.readyToRun_currentThread] at hres ht
    by_cases htn : t = σ.nextTid
    · simp [htn] at hres
    · rw [Function.update_of_ne htn] at hres
      simpa [Kernel.fork, htn, ht] using h.sleeping t s k' old hres (.inl ht)
  | act hr hc hf => exact h.frame rfl rfl (fun t ht => by simp [ht]) (by simp [hr]) (by simp [hr])
  | finish hr hc =>
    refine ⟨by simp, ?_⟩
    intro t s k old hres _
    by_cases ht : t = σ.currentThread
    · simp [ht] at hres
    · exact h.sleeping t s k old (by simpa [ht] using hres) (.inl ht)
  | yieldStay hr he hpc b old =>
    obtain ⟨h1, h2⟩ := setLevel_returns
      { σ with pc := _, level := .IntOff, yieldOnReturn := b } old
    refine h.frame (by simp) (by simp) ?_ h1 h2
    intro t ht
    rcases hpc with ⟨k, _, _, rfl⟩ | ⟨_, rfl⟩ <;> simp [ht]
  | yieldSwitch hr he hpc b old =>
    refine ⟨by simp, ?_⟩
    intro t s k old' hres _
    by_cases ht : t = σ.currentThread
    · simp [ht] at hres
    · have := h.sleeping t s k old' (by simpa [ht] using hres) (.inl ht)
      rcases hpc with ⟨k, _, _, rfl⟩ | ⟨_, rfl⟩ <;> simpa [ht] using this
  | block hr hv =>
    refine ⟨by simp, ?_⟩
    intro t s k old hres _
    by_cases ht : t = σ.currentThread
    · subst ht
      simp only [Function.update_self, Resume.inP.injEq] at hres
      obtain ⟨rfl, rfl, -⟩ := hres
      exact h.testing _ _ _ _ hr
    · exact h.sleeping t s k old (by simpa [ht] using hres) (.inl ht)
  | pass hr hv =>
    obtain ⟨h1, h2⟩ := setLevel_returns { σ with
      sem := _, pc := Function.update σ.pc σ.currentThread _ } _
    exact h.frame (by simp) (by simp) (fun t ht => by simp [ht]) h1 h2
  | idle hr he | endIdle hr =>
    exact ⟨by simp, fun t s k old hres _ => h.sleeping t s k old hres (.inr (.inl (by simp [hr])))⟩
  | wake hr he =>
    exact ⟨by simp, fun t s k old hres _ => h.sleeping t s k old hres (.inr (.inl (by simp [hr])))⟩
  | root hr hc =>
    obtain ⟨h1, h2⟩ := setLevel_returns σ .IntOn
    exact h.frame (by simp) (by simp) (by simp) h1 h2
  | backInYield hr hc =>
    obtain ⟨h1, h2⟩ := setLevel_returns (σ.afterSwitch prog) _
    exact h.frame (by simp) (by simp) (by simp) h1 h2
  | backInP hr hc =>
    refine ⟨?_, ?_⟩
    · intro s k old w hw
      simp only [Ctrl.testP.injEq] at hw
      obtain ⟨rfl, rfl, -, -⟩ := hw
      exact h.sleeping _ _ _ _ hc (.inr (.inr hr))
    · intro t s k old hres _
      exact h.sleeping t s k old hres (.inr (.inr hr))
  | endTick hr => exact h.frame rfl rfl (fun _ _ => rfl) (by simp) (by simp)
  | handlerV hr hd =>
    refine ⟨fun s k old w hw => by simpa using h.testing s k old w (by simpa using hw), ?_⟩
    intro t s k old hres ht
    simpa using h.sleeping t s k old (by simpa using hres) (by simpa using ht)
  | handler hr b =>
    exact ⟨fun s k old w hw => h.testing s k old w hw,
      fun t s k old hres ht => h.sleeping t s k old hres ht⟩

theorem atCall_run (h : (kernel prog).Run tr σ) : AtCall prog σ := by
  refine h.invariant (I := fun _ σ => AtCall prog σ) ?_ ?_
  · rintro σ rfl
    exact ⟨by simp [Kernel.boot], by simp [Kernel.boot]⟩
  · intro tr σ es τ hr hi hs
    exact atCall_step (Kernel.step_of_kernel hs) (placement_run hr) hi

omit [DecidableEq S] in
/-- A thread in a queue is at a call of `P` on that semaphore. -/
theorem AtCall.code_of_queued (h : AtCall prog σ) (hp : Placement tr σ)
    (ht : t ∈ (σ.sem s).queue) : ∃ k, prog.code t (σ.pc t) = .P s k := by
  obtain ⟨_, _, k, old, hr⟩ := hp.queued s t ht
  refine ⟨k, h.sleeping t s k old hr ?_⟩
  by_cases ha : σ.ctrl.asleep = true
  · exact .inr (.inl ha)
  · left
    rintro rfl
    exact (hp.current_not_listed (by simpa using ha)).2 s ht

theorem code_of_queued (h : (kernel prog).Run tr σ) (ht : t ∈ (σ.sem s).queue) :
    ∃ k, prog.code t (σ.pc t) = .P s k :=
  (atCall_run h).code_of_queued (placement_run h) ht

omit [DecidableEq S] in
@[simp] theorem atomically_setLevel (σ : Kernel S Pc D) (old : IntStatus) :
    (σ.setLevel old).atomically = σ.atomically := by
  cases old <;> rfl

@[simp] theorem atomically_semaphoreV (σ : Kernel S Pc D) (s : S) :
    (σ.semaphoreV s).atomically = σ.atomically.setValue s (incr (σ.sem s).value) := by
  ext s' <;> simp [Kernel.atomically]
  by_cases hs : s' = s
  · subst hs
    simp
  · simp [hs]

/-- The value of `s` after a `P` that consumes a unit. -/
theorem value_update (σ : Kernel S Pc D) (s : S) (v : Int) (q : List Tid) :
    (fun s' => (Function.update σ.sem s ⟨v, q⟩ s').value) =
      Function.update (fun s' => (σ.sem s').value) s v := by
  funext s'
  by_cases hs : s' = s
  · subst hs
    simp
  · simp [hs]

/-- One step of the thread system completes at most one atomic step, and may then call a
hook of the scheduler. -/
theorem atomic_step (hs : Kernel.Step prog σ es τ) (hp : Placement tr σ) (h : AtCall prog σ) :
    ∃ b, ((b = σ.atomically ∧ synced es = []) ∨ (atomic prog).step σ.atomically (synced es) b) ∧
      (τ.atomically = b ∨ (atomic prog).step b [] τ.atomically) := by
  have hcur : σ.currentThread < σ.atomically.nextTid := hp.current
  cases hs with
  | enterP hr hc | idle hr he | endIdle hr | endTick hr | finish hr hc =>
    exact ⟨_, .inl ⟨rfl, rfl⟩, .inl rfl⟩
  | root hr hc => exact ⟨_, .inl ⟨rfl, rfl⟩, .inl (atomically_setLevel _ _)⟩
  | @block s k old w hr hv =>
    refine ⟨_, .inl ⟨rfl, rfl⟩, .inl ?_⟩
    simp [Kernel.atomically, value_update]
  | @V s k hr hc =>
    rw [synced_V, atomically_setLevel]
    refine ⟨_, .inr (.V hcur hc), .inl ?_⟩
    have hsem : (σ.semaphoreV s).atomically = σ.atomically.setValue s (incr (σ.atomically.value s)) :=
      atomically_semaphoreV σ s
    rw [← hsem]
    simp [State.goto, Kernel.atomically]
  | tick hr hc => exact ⟨_, .inr (.yield hcur (.inr hc)), .inl rfl⟩
  | fork hr hc =>
    rw [Kernel.fork, atomically_setLevel]
    exact ⟨_, .inr (.fork hcur hc), .inl rfl⟩
  | act hr hc hf =>
    rw [synced_acts]
    exact ⟨_, .inr (.act hcur hc hf), .inl rfl⟩
  | yieldStay hr he hpc b old =>
    rw [atomically_setLevel]
    rcases hpc with ⟨k, hc, _, rfl⟩ | ⟨_, rfl⟩
    · exact ⟨_, .inr (.yield hcur (.inl hc)), .inl rfl⟩
    · exact ⟨_, .inl ⟨rfl, rfl⟩, .inl rfl⟩
  | yieldSwitch hr he hpc b old =>
    rcases hpc with ⟨k, hc, _, rfl⟩ | ⟨_, rfl⟩
    · exact ⟨_, .inr (.yield hcur (.inl hc)), .inr (Step.hook (.switchOut σ.currentThread _))⟩
    · exact ⟨_, .inl ⟨rfl, rfl⟩, .inr (Step.hook (.switchOut σ.currentThread _))⟩
  | @pass s k old w hr hv =>
    rw [atomically_setLevel]
    refine ⟨_, .inr (.P hcur (h.testing s k old w hr) hv), .inl ?_⟩
    simp [Kernel.atomically, State.goto, State.setValue, value_update]
  | wake hr he => exact ⟨_, .inl ⟨rfl, rfl⟩, .inr (Step.hook (.switchOut σ.currentThread _))⟩
  | backInYield hr hc =>
    rw [synced_destroyed, atomically_setLevel]
    exact ⟨_, .inl ⟨rfl, rfl⟩, .inr (Step.hook (.switchIn σ.currentThread _))⟩
  | backInP hr hc =>
    rw [synced_destroyed]
    exact ⟨_, .inl ⟨rfl, rfl⟩, .inr (Step.hook (.switchIn σ.currentThread _))⟩
  | @handlerV s hr hd =>
    rw [synced_V]
    have he : Kernel.atomically { σ.semaphoreV s with data := prog.interrupt σ.data } =
        { σ.atomically.setValue s (incr (σ.sem s).value) with
          data := prog.interrupt σ.data } := by
      rw [← atomically_semaphoreV]
      simp [Kernel.atomically]
    rw [he]
    exact ⟨_, .inr (.handler hd), .inr (Step.hook (.interrupt _))⟩
  | handler hr b => exact ⟨_, .inl ⟨rfl, rfl⟩, .inr (Step.hook (.interrupt _))⟩

/-- Seen from the program, a run under the thread system whose steps meet `G` is an atomic
run whose steps meet `G`. -/
theorem atomic_run_restrict {G : State S Pc D → List (Event S Ev) → Prop} (hG : ∀ a, G a [])
    (h : ((kernel prog).restrict fun σ es => G σ.atomically (synced es)).Run tr σ) :
    ((atomic prog).restrict G).Run (synced tr) σ.atomically := by
  refine h.refine ?_ ?_
  · rintro σ rfl
    rfl
  · intro tr σ es τ hr hs
    have hrun := hr.of_restrict
    obtain ⟨b, hfirst, hhook⟩ :=
      atomic_step (Kernel.step_of_kernel hs.1) (placement_run hrun) (atCall_run hrun)
    have hfirst : ((atomic prog).restrict G).Steps σ.atomically (synced es) b := by
      rcases hfirst with ⟨rfl, he⟩ | hfirst
      · rw [he]
        exact .none _
      · exact .one ⟨hfirst, hs.2⟩
    have hhook : ((atomic prog).restrict G).Steps b [] τ.atomically := by
      rcases hhook with hhook | hhook
      · rw [hhook]
        exact .none _
      · exact .one ⟨hhook, hG b⟩
    change System.Steps _ σ.atomically (synced es) τ.atomically
    simpa using hfirst.trans hhook

/-- Every run under the thread system is, seen from the program, an atomic run. -/
theorem atomic_run (h : (kernel prog).Run tr σ) :
    (atomic prog).Run (synced tr) σ.atomically := by
  have hall : ((kernel prog).restrict fun _ _ => True).Run tr σ := by
    induction h with
    | start hi => exact .start hi
    | next _ hs ih => exact .next ih ⟨hs, trivial⟩
  exact (atomic_run_restrict (G := fun _ _ => True) (fun _ => trivial) hall).of_restrict

end Nachos
