import Nachos.Threads.Steps
import Mathlib.Data.List.Nodup

/-!
# Every thread is in one place

A thread is current, on the ready list, in the queue of one semaphore, or finished.
While a thread that has gone to sleep still lends its stack to `Thread::Sleep`, it is
current only in name.
-/
namespace Nachos

open Concurrent

variable {S Pc D Ev C : Type} {prog : Program S Pc D Ev C}
  {σ τ : Kernel S Pc D} {tr es : List (KEvent S Ev)} {t : Tid} {s : S}

/-- The processor is inside `Thread::Sleep`, called by the current thread. -/
def Ctrl.asleep : Ctrl S Pc → Bool
  | .sleep | .idle => true
  | _ => false

section
variable (s : S) (k : Pc) (old : IntStatus) (w : Bool)

@[simp] theorem asleep_run : (.run : Ctrl S Pc).asleep = false := rfl
@[simp] theorem asleep_testP : (.testP s k old w : Ctrl S Pc).asleep = false := rfl
@[simp] theorem asleep_sleep : (.sleep : Ctrl S Pc).asleep = true := rfl
@[simp] theorem asleep_idle : (.idle : Ctrl S Pc).asleep = true := rfl
@[simp] theorem asleep_switched : (.switched : Ctrl S Pc).asleep = false := rfl
@[simp] theorem asleep_tick : (.tick : Ctrl S Pc).asleep = false := rfl

end

@[simp] theorem asleep_setLevel (σ : Kernel S Pc D) (old : IntStatus) :
    (σ.setLevel old).ctrl.asleep = false := by
  cases old <;> rfl

@[simp] theorem level_setLevel (σ : Kernel S Pc D) (old : IntStatus) :
    (σ.setLevel old).level = .IntOff := by
  cases old <;> rfl

/-- The threads given to `ReadyToRun`, in that order. -/
def readied (tr : List (KEvent S Ev)) : List Tid :=
  tr.filterMap fun | .ready t => some t | _ => none

/-- The threads given to `Scheduler::Run`, in that order. -/
def dispatched (tr : List (KEvent S Ev)) : List Tid :=
  tr.filterMap fun | .dispatch t => some t | _ => none

/-- Events that are neither about the ready list nor an end of a thread. -/
def Quiet (es : List (KEvent S Ev)) : Prop :=
  readied es = [] ∧ dispatched es = [] ∧ ∀ t, .finish t ∉ es

@[simp] theorem readied_append (tr es : List (KEvent S Ev)) :
    readied (tr ++ es) = readied tr ++ readied es := List.filterMap_append

@[simp] theorem dispatched_append (tr es : List (KEvent S Ev)) :
    dispatched (tr ++ es) = dispatched tr ++ dispatched es := List.filterMap_append

theorem quiet_nil : Quiet ([] : List (KEvent S Ev)) := by simp [Quiet, readied, dispatched]

theorem quiet_sync (e : Event S Ev) : Quiet [KEvent.sync e] := by
  simp [Quiet, readied, dispatched]

theorem quiet_acts (t : Tid) (es : List Ev) :
    Quiet (es.map fun e => (.sync (.act t e) : KEvent S Ev)) := by
  simp [Quiet, readied, dispatched]

theorem quiet_destroyed (σ : Kernel S Pc D) : Quiet (σ.destroyed : List (KEvent S Ev)) := by
  simp [Quiet, readied, dispatched, Kernel.destroyed]

/-- The invariant. Statuses keep the three kinds of list apart, and the saved context of
a sleeping thread names the only queue it can be in. -/
structure Placement (tr : List (KEvent S Ev)) (σ : Kernel S Pc D) : Prop where
  current : σ.currentThread < σ.nextTid
  readyNodup : σ.readyList.Nodup
  queueNodup : ∀ s, (σ.sem s).queue.Nodup
  ready : ∀ t ∈ σ.readyList, t < σ.nextTid ∧ σ.status t = .READY ∧ σ.resume t ≠ .inFinish
  queued : ∀ s, ∀ t ∈ (σ.sem s).queue,
    t < σ.nextTid ∧ σ.status t = .BLOCKED ∧ ∃ k old, σ.resume t = .inP s k old
  running : σ.ctrl.asleep = false →
    σ.status σ.currentThread = .RUNNING ∧ σ.resume σ.currentThread ≠ .inFinish
  cover : ∀ t < σ.nextTid, (t = σ.currentThread ∧ σ.ctrl.asleep = false) ∨ t ∈ σ.readyList ∨
    (∃ s, t ∈ (σ.sem s).queue) ∨ σ.resume t = .inFinish
  fresh : ∀ t, σ.nextTid ≤ t → σ.resume t = .threadRoot
  finished : ∀ t, .finish t ∈ tr ↔ σ.resume t = .inFinish
  fifo : readied tr = dispatched tr ++ σ.readyList
  enabled : σ.level = .IntOn → σ.ctrl = .run

theorem placement_boot : Placement ([] : List (KEvent S Ev)) (Kernel.boot prog) := by
  constructor <;> simp [Kernel.boot, readied, dispatched]

/-- Steps that move no thread. -/
theorem Placement.frame (h : Placement tr σ) (hq : Quiet es)
    (hcur : τ.currentThread = σ.currentThread) (hready : τ.readyList = σ.readyList)
    (hstatus : τ.status = σ.status) (hresume : τ.resume = σ.resume)
    (hnext : τ.nextTid = σ.nextTid) (hqueue : ∀ s, (τ.sem s).queue = (σ.sem s).queue)
    (hsleep : τ.ctrl.asleep = σ.ctrl.asleep) (hlevel : τ.level = .IntOn → τ.ctrl = .run) :
    Placement (tr ++ es) τ := by
  obtain ⟨hr, hd, hf⟩ := hq
  constructor
  · simpa [hcur, hnext] using h.current
  · simpa [hready] using h.readyNodup
  · intro s
    simpa [hqueue] using h.queueNodup s
  · simpa [hready, hnext, hstatus, hresume] using h.ready
  · simpa [hqueue, hnext, hstatus, hresume] using h.queued
  · simpa [hsleep, hcur, hstatus, hresume] using h.running
  · simpa [hnext, hcur, hsleep, hready, hqueue, hresume] using h.cover
  · simpa [hnext, hresume] using h.fresh
  · intro t
    simpa [hresume, hf] using h.finished t
  · simpa [hr, hd, hready] using h.fifo
  · exact hlevel

theorem Placement.not_ready_of_queued (h : Placement tr σ) (ht : t ∈ (σ.sem s).queue) :
    t ∉ σ.readyList := by
  intro hr
  have h1 := (h.queued s t ht).2.1
  simp [(h.ready t hr).2.1] at h1

/-- The saved context of a queued thread determines the queue. -/
theorem Placement.queue_unique (h : Placement tr σ) {s s' : S} (ht : t ∈ (σ.sem s).queue)
    (ht' : t ∈ (σ.sem s').queue) : s = s' := by
  obtain ⟨_, _, _, _, hs⟩ := h.queued s t ht
  obtain ⟨_, _, _, _, hs'⟩ := h.queued s' t ht'
  simp_all

theorem Placement.current_not_listed (h : Placement tr σ) (ha : σ.ctrl.asleep = false) :
    σ.currentThread ∉ σ.readyList ∧ ∀ s, σ.currentThread ∉ (σ.sem s).queue := by
  have hr := (h.running ha).1
  refine ⟨fun hm => ?_, fun s hm => ?_⟩
  · simp [(h.ready _ hm).2.1] at hr
  · simp [(h.queued s _ hm).2.1] at hr

theorem Placement.next_not_listed (h : Placement tr σ) :
    σ.nextTid ∉ σ.readyList ∧ ∀ s, σ.nextTid ∉ (σ.sem s).queue := by
  refine ⟨fun hm => ?_, fun s hm => ?_⟩
  · exact absurd (h.ready _ hm).1 (lt_irrefl _)
  · exact absurd (h.queued s _ hm).1 (lt_irrefl _)

/-- The events of a `V`: one thread at most is made ready. -/
theorem semaphoreV_events (σ : Kernel S Pc D) (s : S) (e : Event S Ev) :
    readied (σ.semaphoreVReady s ++ [.sync e]) = (σ.sem s).queue.take 1 ∧
    dispatched (σ.semaphoreVReady s ++ [KEvent.sync e]) = [] ∧
    ∀ t, .finish t ∉ σ.semaphoreVReady s ++ [KEvent.sync e] := by
  cases h : (σ.sem s).queue <;> simp [readied, dispatched, Kernel.semaphoreVReady, h]

theorem Placement.fork (h : Placement tr σ) (hr : σ.ctrl = .run) (child : Pc) (k : Tid → Pc)
    (setup : Tid → D → D) :
    Placement (tr ++ [.ready σ.nextTid]) (σ.fork child k setup) := by
  have ha : σ.ctrl.asleep = false := by simp [hr]
  obtain ⟨hn1, hn2⟩ := h.next_not_listed
  have hcur : σ.currentThread ≠ σ.nextTid := (h.current).ne
  have hmem : ∀ t ∈ σ.readyList, t ≠ σ.nextTid := fun t ht => (h.ready t ht).1.ne
  constructor
  · simpa [Kernel.fork] using Nat.lt_succ_of_lt h.current
  · simpa [Kernel.fork, List.nodup_append, h.readyNodup] using hmem
  · simpa [Kernel.fork] using h.queueNodup
  · intro t ht
    simp only [Kernel.fork, Kernel.setLevel_readyList, Kernel.readyToRun_readyList,
      List.mem_append, List.mem_singleton] at ht
    rcases ht with ht | rfl
    · obtain ⟨h1, h2, h3⟩ := h.ready t ht
      simp [Kernel.fork, hmem t ht, h2, h3, Nat.lt_succ_of_lt h1]
    · simp [Kernel.fork]
  · intro s t ht
    simp only [Kernel.fork, Kernel.setLevel_sem, Kernel.readyToRun_sem] at ht
    obtain ⟨h1, h2, h3⟩ := h.queued s t ht
    simp [Kernel.fork, h1.ne, h2, h3, Nat.lt_succ_of_lt h1]
  · intro _
    simpa [Kernel.fork, hcur] using h.running ha
  · intro t ht
    simp only [Kernel.fork, Kernel.setLevel_nextTid, Kernel.readyToRun_nextTid] at ht
    have hs : (σ.fork child k setup).ctrl.asleep = false := asleep_setLevel _ _
    by_cases htn : t = σ.nextTid
    · right; left
      simp [Kernel.fork, htn]
    · have := h.cover t (lt_of_le_of_ne (Nat.lt_succ_iff.mp ht) htn)
      simp only [hs]
      simp only [ha] at this
      simp only [Kernel.fork, Kernel.setLevel_currentThread, Kernel.readyToRun_currentThread,
        Kernel.setLevel_readyList, Kernel.readyToRun_readyList, List.mem_append,
        Kernel.setLevel_sem, Kernel.readyToRun_sem, Kernel.setLevel_resume,
        Kernel.readyToRun_resume, Function.update_of_ne htn]
      tauto
  · intro t ht
    simp only [Kernel.fork, Kernel.setLevel_nextTid, Kernel.readyToRun_nextTid] at ht
    have hlt : σ.nextTid < t := ht
    simp [Kernel.fork, hlt.ne', h.fresh t hlt.le]
  · intro t
    have hf := h.finished t
    by_cases htn : t = σ.nextTid
    · subst htn
      simp [h.fresh _ le_rfl] at hf
      simp [Kernel.fork, hf]
    · simpa [Kernel.fork, htn] using hf
  · have := h.fifo
    simp [Kernel.fork, readied, dispatched] at this ⊢
    simp [this]
  · intro hl
    simp [Kernel.fork] at hl

theorem Placement.finish (h : Placement tr σ) (hr : σ.ctrl = .run) :
    Placement (tr ++ [.finish σ.currentThread])
      { σ with
        level := .IntOff
        threadToBeDestroyed := some σ.currentThread
        status := Function.update σ.status σ.currentThread .BLOCKED
        resume := Function.update σ.resume σ.currentThread .inFinish
        ctrl := .sleep } := by
  have ha : σ.ctrl.asleep = false := by simp [hr]
  obtain ⟨hn1, hn2⟩ := h.current_not_listed ha
  have hne : ∀ t ∈ σ.readyList, t ≠ σ.currentThread := fun t ht he => hn1 (he ▸ ht)
  have hne' : ∀ s, ∀ t ∈ (σ.sem s).queue, t ≠ σ.currentThread :=
    fun s t ht he => hn2 s (he ▸ ht)
  constructor
  · exact h.current
  · exact h.readyNodup
  · exact h.queueNodup
  · intro t ht
    simpa [hne t ht] using h.ready t ht
  · intro s t ht
    simpa [hne' s t ht] using h.queued s t ht
  · simp
  · intro t ht
    by_cases hc : t = σ.currentThread
    · simp [hc]
    · simpa [hc] using h.cover t ht
  · intro t ht
    simpa [show t ≠ σ.currentThread from (lt_of_lt_of_le h.current ht).ne'] using h.fresh t ht
  · intro t
    by_cases hc : t = σ.currentThread
    · simp [hc]
    · simpa [hc] using h.finished t
  · simpa [readied, dispatched] using h.fifo
  · simp

/-- `Scheduler::Run` from `Sleep`: the first ready thread takes the processor. -/
theorem Placement.wake (h : Placement tr σ) (hr : σ.ctrl = .sleep) {next : Tid} {rest : List Tid}
    (he : σ.readyList = next :: rest) :
    Placement (tr ++ [.dispatch next])
      (σ.dispatch prog next |> fun τ => { τ with readyList := rest }) := by
  have ha : σ.ctrl.asleep = true := by simp [hr]
  have hnd := h.readyNodup
  rw [he, List.nodup_cons] at hnd
  have hready := h.ready
  simp only [he, List.mem_cons, forall_eq_or_imp] at hready
  have hq : ∀ s, next ∉ (σ.sem s).queue := by
    intro s hm
    exact h.not_ready_of_queued hm (by simp [he])
  constructor
  · exact hready.1.1
  · exact hnd.2
  · exact h.queueNodup
  · intro t ht
    have : t ≠ next := fun hc => hnd.1 (hc ▸ ht)
    simpa [this] using hready.2 t ht
  · intro s t ht
    have : t ≠ next := fun hc => hq s (hc ▸ ht)
    simpa [this] using h.queued s t ht
  · intro _
    simpa using hready.1.2.2
  · intro t ht
    have hc := h.cover t ht
    simp only [ha, he, List.mem_cons, Bool.true_eq_false, and_false, false_or] at hc
    rcases hc with (rfl | hc) | hc
    · exact .inl ⟨rfl, rfl⟩
    · exact .inr (.inl hc)
    · exact .inr (.inr hc)
  · exact h.fresh
  · intro t
    simpa using h.finished t
  · have := h.fifo
    simp only [he] at this
    simpa [readied, dispatched] using this
  · intro hl
    have := h.enabled hl
    simp [hr] at this

/-- `Yield` takes the next thread off the ready list before it puts the current one on. -/
theorem Placement.yieldSwitch (h : Placement tr σ) (hr : σ.ctrl = .run ∨ σ.ctrl = .tick)
    {next : Tid} {rest : List Tid} (he : σ.readyList = next :: rest) (pc : Tid → Pc) (b : Bool)
    (old : IntStatus) :
    Placement (tr ++ [.ready σ.currentThread, .dispatch next])
      (Kernel.dispatch prog
        { Kernel.readyToRun { σ with
              pc := pc, level := .IntOff, yieldOnReturn := b, readyList := rest }
            σ.currentThread with
          resume := Function.update σ.resume σ.currentThread (.inYield old) } next) := by
  have ha : σ.ctrl.asleep = false := by rcases hr with hr | hr <;> simp [hr]
  have hnd := h.readyNodup
  rw [he, List.nodup_cons] at hnd
  have hready := h.ready
  simp only [he, List.mem_cons, forall_eq_or_imp] at hready
  obtain ⟨hn1, hn2⟩ := h.current_not_listed ha
  simp only [he, List.mem_cons, not_or] at hn1
  have hq : ∀ s, next ∉ (σ.sem s).queue := by
    intro s hm
    exact h.not_ready_of_queued hm (by simp [he])
  have hne' : ∀ s, ∀ t ∈ (σ.sem s).queue, t ≠ σ.currentThread :=
    fun s t ht he => hn2 s (he ▸ ht)
  constructor
  · exact hready.1.1
  · simp only [Kernel.dispatch_readyList, Kernel.readyToRun_readyList, List.nodup_append]
    refine ⟨hnd.2, List.nodup_singleton _, ?_⟩
    intro a ha' b hb hab
    simp only [List.mem_singleton] at hb
    exact hn1.2 (hb ▸ hab ▸ ha')
  · exact h.queueNodup
  · intro t ht
    simp only [Kernel.dispatch_readyList, Kernel.readyToRun_readyList, List.mem_append,
      List.mem_singleton] at ht
    rcases ht with ht | rfl
    · have h1 : t ≠ next := fun hc => hnd.1 (hc ▸ ht)
      have h2 : t ≠ σ.currentThread := fun hc => hn1.2 (hc ▸ ht)
      simpa [h1, h2] using hready.2 t ht
    · simp [hn1.1, h.current]
  · intro s t ht
    have h1 : t ≠ next := fun hc => hq s (hc ▸ ht)
    simpa [h1, hne' s t ht] using h.queued s t ht
  · intro _
    simpa [Ne.symm hn1.1] using hready.1.2.2
  · intro t ht
    by_cases hcur : t = σ.currentThread
    · right; left
      simp [hcur]
    · have hc := h.cover t ht
      simp only [he, List.mem_cons, hcur, false_and, false_or] at hc
      rcases hc with (rfl | hc) | hc | hc
      · exact .inl ⟨rfl, rfl⟩
      · exact .inr (.inl (by simp [hc]))
      · exact .inr (.inr (.inl hc))
      · exact .inr (.inr (.inr (by simpa [hcur] using hc)))
  · intro t ht
    simpa [show t ≠ σ.currentThread from (lt_of_lt_of_le h.current ht).ne'] using h.fresh t ht
  · intro t
    have hf := h.finished t
    by_cases hcur : t = σ.currentThread
    · have := (h.running ha).2
      simp_all
    · simpa [hcur] using hf
  · have := h.fifo
    simp only [he] at this
    simp [readied, dispatched] at this ⊢
    simp [this]
  · intro hl
    simp [Kernel.dispatch] at hl

variable [DecidableEq S]

/-- `V` takes the first thread of the queue and makes it ready. -/
theorem Placement.semaphoreV (h : Placement tr σ) {e : Event S Ev}
    (hcur : τ.currentThread = σ.currentThread)
    (hready : τ.readyList = (σ.semaphoreV s).readyList)
    (hstatus : τ.status = (σ.semaphoreV s).status) (hresume : τ.resume = σ.resume)
    (hnext : τ.nextTid = σ.nextTid) (hsem : τ.sem = (σ.semaphoreV s).sem)
    (hsleep : τ.ctrl.asleep = σ.ctrl.asleep) (hlevel : τ.level = .IntOn → τ.ctrl = .run) :
    Placement (tr ++ (σ.semaphoreVReady s ++ [.sync e])) τ := by
  obtain ⟨hrd, hdisp, hfin⟩ := semaphoreV_events σ s e
  have hq := h.queued s
  have hnodup := h.queueNodup s
  have hnr : ∀ t ∈ (σ.sem s).queue, t ∉ σ.readyList := fun t ht => h.not_ready_of_queued ht
  -- A thread of another queue is not the one that is woken.
  have hother : ∀ s' ≠ s, ∀ t ∈ (σ.sem s').queue, t ∉ (σ.sem s).queue.take 1 := by
    intro s' hs t ht ht1
    exact hs (h.queue_unique ht (List.mem_of_mem_take ht1))
  have htail : ∀ t ∈ (σ.sem s).queue.tail, t ∉ (σ.sem s).queue.take 1 := by
    cases hl : (σ.sem s).queue with
    | nil => simp
    | cons a q => simp_all; grind
  have hmem : ∀ t, t ∈ (σ.sem s).queue → t ∈ (σ.sem s).queue.take 1 ∨
      t ∈ (σ.sem s).queue.tail := by
    cases (σ.sem s).queue <;> simp
  have hqueue : ∀ s', (τ.sem s').queue =
      if s' = s then (σ.sem s).queue.tail else (σ.sem s').queue := by
    intro s'
    rw [hsem, Kernel.semaphoreV_sem]
    by_cases hs : s' = s <;> simp [hs]
  have hstat : ∀ t, τ.status t = if t ∈ (σ.sem s).queue.take 1 then .READY else σ.status t := by
    intro t
    rw [hstatus, Kernel.semaphoreV_status]
  constructor
  · simpa [hcur, hnext] using h.current
  · rw [hready, Kernel.semaphoreV_readyList, List.nodup_append]
    refine ⟨h.readyNodup, hnodup.sublist (List.take_sublist _ _), ?_⟩
    intro a ha b hb hab
    exact hnr b (List.mem_of_mem_take hb) (hab ▸ ha)
  · intro s'
    rw [hqueue]
    split
    · exact hnodup.sublist (List.tail_sublist _)
    · exact h.queueNodup s'
  · intro t ht
    rw [hready, Kernel.semaphoreV_readyList, List.mem_append] at ht
    rw [hnext, hstat, hresume]
    rcases ht with ht | ht
    · obtain ⟨h1, h2, h3⟩ := h.ready t ht
      exact ⟨h1, by split <;> simp [h2], h3⟩
    · obtain ⟨h1, _, k, old, h3⟩ := hq t (List.mem_of_mem_take ht)
      exact ⟨h1, by simp [ht], by simp [h3]⟩
  · intro s' t ht
    rw [hqueue] at ht
    rw [hnext, hstat, hresume]
    split at ht
    · rename_i hs
      subst hs
      simpa [htail t ht] using hq t (List.mem_of_mem_tail ht)
    · rename_i hs
      simpa [hother s' hs t ht] using h.queued s' t ht
  · intro ha
    rw [hsleep] at ha
    obtain ⟨h1, h2⟩ := h.running ha
    rw [hcur, hstat, hresume]
    refine ⟨?_, h2⟩
    split
    · rename_i ht
      have := (hq _ (List.mem_of_mem_take ht)).2.1
      simp [h1] at this
    · exact h1
  · intro t ht
    rw [hnext] at ht
    rw [hcur, hsleep, hready, hresume, Kernel.semaphoreV_readyList]
    rcases h.cover t ht with h1 | h1 | ⟨s', h1⟩ | h1
    · exact .inl h1
    · exact .inr (.inl (List.mem_append_left _ h1))
    · by_cases hs : s' = s
      · subst hs
        rcases hmem t h1 with h2 | h2
        · exact .inr (.inl (List.mem_append_right _ h2))
        · exact .inr (.inr (.inl ⟨s', by simpa [hqueue] using h2⟩))
      · exact .inr (.inr (.inl ⟨s', by simpa [hqueue, hs] using h1⟩))
    · exact .inr (.inr (.inr h1))
  · simpa [hnext, hresume] using h.fresh
  · intro t
    rw [List.mem_append, or_iff_left (hfin t), hresume]
    exact h.finished t
  · rw [readied_append, dispatched_append, hrd, hdisp, hready, Kernel.semaphoreV_readyList,
      h.fifo]
    simp
  · exact hlevel

theorem Placement.block (h : Placement tr σ) {k : Pc} {old : IntStatus} {w : Bool}
    (hr : σ.ctrl = .testP s k old w) :
    Placement tr
      { σ with
        sem := Function.update σ.sem s ⟨(σ.sem s).value, (σ.sem s).queue ++ [σ.currentThread]⟩
        status := Function.update σ.status σ.currentThread .BLOCKED
        resume := Function.update σ.resume σ.currentThread (.inP s k old)
        ctrl := .sleep } := by
  have ha : σ.ctrl.asleep = false := by simp [hr]
  obtain ⟨hn1, hn2⟩ := h.current_not_listed ha
  have hne : ∀ t ∈ σ.readyList, t ≠ σ.currentThread := fun t ht he => hn1 (he ▸ ht)
  have hne' : ∀ s, ∀ t ∈ (σ.sem s).queue, t ≠ σ.currentThread :=
    fun s t ht he => hn2 s (he ▸ ht)
  have hfin := (h.running ha).2
  constructor
  · exact h.current
  · exact h.readyNodup
  · intro s'
    by_cases hs : s' = s
    · subst hs
      simpa [List.nodup_append, h.queueNodup s'] using hne' s'
    · simpa [hs] using h.queueNodup s'
  · intro t ht
    simpa [hne t ht] using h.ready t ht
  · intro s' t ht
    by_cases hc : t = σ.currentThread
    · by_cases hs : s' = s
      · simp [hc, hs, h.current]
      · simp [hc, hs, hn2] at ht
    · by_cases hs : s' = s
      · subst hs
        simp only [Function.update_self, List.mem_append, List.mem_singleton, hc, or_false] at ht
        simpa [hc] using h.queued s' t ht
      · simp only [Function.update_of_ne hs] at ht
        simpa [hc] using h.queued s' t ht
  · simp
  · intro t ht
    by_cases hc : t = σ.currentThread
    · exact .inr (.inr (.inl ⟨s, by simp [hc]⟩))
    · rcases h.cover t ht with h1 | h1 | ⟨s', h1⟩ | h1
      · exact absurd h1.1 hc
      · exact .inr (.inl h1)
      · refine .inr (.inr (.inl ⟨s', ?_⟩))
        by_cases hs : s' = s
        · subst hs
          simp [h1]
        · simpa [hs] using h1
      · exact .inr (.inr (.inr (by simpa [hc] using h1)))
  · intro t ht
    simpa [show t ≠ σ.currentThread from (lt_of_lt_of_le h.current ht).ne'] using h.fresh t ht
  · intro t
    by_cases hc : t = σ.currentThread
    · have := h.finished t
      simp_all
    · simpa [hc] using h.finished t
  · exact h.fifo
  · intro hl
    have := h.enabled hl
    simp [hr] at this

theorem placement_step (hs : Kernel.Step prog σ es τ) (h : Placement tr σ) :
    Placement (tr ++ es) τ := by
  cases hs with
  | enterP hr hc =>
    exact h.frame quiet_nil rfl rfl rfl rfl rfl (fun _ => rfl) (by simp [hr])
      (by simp)
  | V hr hc =>
    exact h.semaphoreV (by simp) (by simp) (by simp) (by simp) (by simp) (by simp)
      (by simp [hr]) (by simp)
  | tick hr hc =>
    exact h.frame quiet_nil rfl rfl rfl rfl rfl (fun _ => rfl) (by simp [hr])
      (by simp)
  | fork hr hc => exact h.fork hr _ _ _
  | act hr hc hf =>
    exact h.frame (quiet_acts _ _) rfl rfl rfl rfl rfl (fun _ => rfl) rfl (fun _ => hr)
  | finish hr hc => exact h.finish hr
  | yieldStay hr he hpc b old =>
    refine h.frame quiet_nil (by simp) (by simp) (by simp) (by simp) (by simp) (by simp) ?_
      (by simp)
    rcases hr with hr | hr <;> simp [hr]
  | yieldSwitch hr he hpc b old => exact h.yieldSwitch hr he _ b old
  | block hr hv =>
    rw [List.append_nil]
    exact h.block hr
  | @pass s _ _ _ hr hv =>
    refine h.frame (quiet_sync _) (by simp) (by simp) (by simp) (by simp) (by simp) ?_
      (by simp [hr]) (by simp)
    intro s'
    by_cases hs : s' = s <;> simp [hs]
  | idle hr he =>
    refine h.frame quiet_nil rfl rfl rfl rfl rfl (fun _ => rfl) (by simp [hr]) ?_
    intro hl
    have := h.enabled hl
    simp [hr] at this
  | wake hr he => exact h.wake hr he
  | endIdle hr =>
    refine h.frame quiet_nil rfl rfl rfl rfl rfl (fun _ => rfl) (by simp [hr]) ?_
    intro hl
    have := h.enabled hl
    simp [hr] at this
  | root hr hc =>
    exact h.frame quiet_nil (by simp) (by simp) (by simp) (by simp) (by simp) (by simp)
      (by simp [hr]) (by simp)
  | backInYield hr hc =>
    exact h.frame (quiet_destroyed σ) (by simp) (by simp) (by simp) (by simp) (by simp) (by simp)
      (by simp [hr]) (by simp)
  | backInP hr hc =>
    refine h.frame (quiet_destroyed σ) rfl rfl rfl rfl rfl (fun _ => rfl)
      (by simp [hr]) ?_
    intro hl
    have := h.enabled hl
    simp [hr] at this
  | endTick hr =>
    exact h.frame quiet_nil rfl rfl rfl rfl rfl (fun _ => rfl) (by simp [hr])
      (fun _ => rfl)
  | handlerV hr hd =>
    refine h.semaphoreV (by simp) (by simp) (by simp) (by simp) (by simp) (by simp)
      (by simp) ?_
    intro hl
    simpa using h.enabled (by simpa using hl)
  | handler hr b => exact h.frame quiet_nil rfl rfl rfl rfl rfl (fun _ => rfl) rfl h.enabled

theorem placement_run (h : (kernel prog).Run tr σ) : Placement tr σ := by
  refine h.invariant ?_ ?_
  · rintro σ rfl
    exact placement_boot
  · intro tr σ es τ _ hp hs
    exact placement_step (Kernel.step_of_kernel hs) hp

/-- `t` is in exactly one place, exactly once, and has the status of that place. -/
def Placed (σ : Kernel S Pc D) (t : Tid) : Prop :=
  (t = σ.currentThread ∧ σ.status t = .RUNNING ∧ σ.readyList.count t = 0 ∧
    ∀ s, (σ.sem s).queue.count t = 0) ∨
  (t ≠ σ.currentThread ∧ σ.status t = .READY ∧ σ.readyList.count t = 1 ∧
    ∀ s, (σ.sem s).queue.count t = 0) ∨
  (t ≠ σ.currentThread ∧ σ.status t = .BLOCKED ∧ σ.readyList.count t = 0 ∧
    ∃ s, (σ.sem s).queue.count t = 1 ∧ ∀ s' ≠ s, (σ.sem s').queue.count t = 0)

omit [DecidableEq S] in
theorem placed_of_placement (h : Placement tr σ) (ha : σ.ctrl.asleep = false)
    (ht : t < σ.nextTid) (hf : .finish t ∉ tr) : Placed σ t := by
  obtain ⟨hn1, hn2⟩ := h.current_not_listed ha
  rcases h.cover t ht with ⟨rfl, _⟩ | hr | ⟨s, hq⟩ | hfin
  · left
    exact ⟨rfl, (h.running ha).1, List.count_eq_zero.mpr hn1,
      fun s => List.count_eq_zero.mpr (hn2 s)⟩
  · right; left
    refine ⟨fun hc => hn1 (hc ▸ hr), (h.ready t hr).2.1,
      List.count_eq_one_of_mem h.readyNodup hr, fun s => List.count_eq_zero.mpr ?_⟩
    exact fun hq => h.not_ready_of_queued hq hr
  · right; right
    refine ⟨fun hc => hn2 s (hc ▸ hq), (h.queued s t hq).2.1,
      List.count_eq_zero.mpr (h.not_ready_of_queued hq), s,
      List.count_eq_one_of_mem (h.queueNodup s) hq, fun s' hs => List.count_eq_zero.mpr ?_⟩
    exact fun hq' => hs (h.queue_unique hq' hq)
  · exact absurd ((h.finished t).mpr hfin) hf

/-- Whenever interrupts are enabled or a dispatch has just completed, every thread that
exists and has not finished is current, or ready, or in one queue; a finished thread is
nowhere; and the ready list is what has been made ready and not yet dispatched, in order. -/
theorem thread_placement (h : (kernel prog).Run tr σ)
    (ho : σ.level = .IntOn ∨ σ.ctrl = .switched) :
    (∀ t < σ.nextTid, .finish t ∉ tr → Placed σ t) ∧
    (∀ t, .finish t ∈ tr → t ≠ σ.currentThread ∧ σ.readyList.count t = 0 ∧
      ∀ s, (σ.sem s).queue.count t = 0) ∧
    readied tr = dispatched tr ++ σ.readyList := by
  have hp := placement_run h
  have ha : σ.ctrl.asleep = false := by
    rcases ho with ho | ho
    · simp [hp.enabled ho]
    · simp [ho]
  refine ⟨fun t ht hf => placed_of_placement hp ha ht hf, ?_, hp.fifo⟩
  intro t hf
  have hfin := (hp.finished t).mp hf
  refine ⟨?_, List.count_eq_zero.mpr ?_, fun s => List.count_eq_zero.mpr ?_⟩
  · rintro rfl
    exact (hp.running ha).2 hfin
  · exact fun hr => (hp.ready t hr).2.2 hfin
  · intro hq
    obtain ⟨_, _, k, old, hs⟩ := hp.queued s t hq
    simp [hfin] at hs

/-- A parent forks a child and waits for it on a semaphore. -/
def handOff : Program Unit ℕ Unit Unit Unit where
  code _ pc :=
    match pc with
    | 0 => .fork 10 (fun _ => 1) (fun _ d => d)
    | 1 => .P () 2
    | 10 => .V () 11
    | _ => .finish
  value _ := 0
  start := 0
  data := ()
  device _ := false
  switchOut _ d := d
  switchIn _ d := d
  interrupt d := d

/-- The parent sleeps in `P`, and the child has been dispatched for the first time. -/
theorem thread_placement_handOff : ∃ tr σ, (kernel handOff).Run tr σ ∧ σ.ctrl = .switched ∧
    (∀ t < σ.nextTid, .finish t ∉ tr → Placed σ t) ∧ (σ.sem ()).queue = [0] := by
  obtain ⟨tr, σ, hr, _, hp⟩ := System.exists_run_of_exec (Kernel.boot handOff)
    (Kernel.next handOff) (List.replicate 5 (.cpu ()))
    (fun r => decide (r.1.ctrl = .switched ∧ (r.1.sem ()).queue = [0])) (by decide +kernel)
  have hp := of_decide_eq_true hp
  exact ⟨tr, σ, hr, hp.1, (thread_placement hr (.inr hp.1)).1, hp.2⟩

end Nachos
