import Nachos.Threads.Placement

/-!
# Who deletes a finished thread

`Thread::Finish` leaves the thread in `threadToBeDestroyed`, and the next thread that comes
back from `SWITCH` inside `Scheduler::Run` deletes it. A thread that is dispatched for the
first time starts in `ThreadRoot` and does not, so it matters whether a thread that has run
before is dispatched between two calls of `Finish`.
-/
namespace Nachos

open Concurrent

variable {S Pc D Ev C : Type} {prog : Program S Pc D Ev C}
  {σ τ : Kernel S Pc D} {tr es : List (KEvent S Ev)} {t : Tid}

/-- The threads deleted so far, in that order. -/
def deleted (tr : List (KEvent S Ev)) : List Tid :=
  tr.filterMap fun | .destroy t => some t | _ => none

/-- What the order of the dispatches and of the calls of `Finish` says: the threads that have
run, whether one has finished since a thread last came back to `Scheduler::Run`, and whether
that was never so at a call of `Finish`. -/
structure Watch where
  started : List Tid
  owed : Bool
  spaced : Bool

def Watch.event (w : Watch) : KEvent S Ev → Watch
  | .finish _ => { w with owed := true, spaced := w.spaced && !w.owed }
  | .dispatch t => { w with started := t :: w.started, owed := w.owed && decide (t ∉ w.started) }
  | _ => w

def watch (tr : List (KEvent S Ev)) : Watch := tr.foldl Watch.event ⟨[0], false, true⟩

/-- Between any two calls of `Finish` a thread that has run before is dispatched. -/
def Spaced (tr : List (KEvent S Ev)) : Prop := (watch tr).spaced = true

/-- Every finished thread has been deleted once, or is the one to be deleted next, and those
that have been deleted are neither current nor ready nor waiting. -/
structure Collected (tr : List (KEvent S Ev)) (σ : Kernel S Pc D) : Prop where
  once : ∀ t, .finish t ∈ tr →
    (σ.threadToBeDestroyed = some t ∧ (deleted tr).count t = 0) ∨
    (σ.threadToBeDestroyed ≠ some t ∧ (deleted tr).count t = 1)
  gone : ∀ t ∈ deleted tr, .finish t ∈ tr ∧ t ≠ σ.currentThread ∧ t ∉ σ.readyList ∧
    ∀ s, t ∉ (σ.sem s).queue

theorem watch_append : watch (tr ++ es) = es.foldl Watch.event (watch tr) := List.foldl_append

@[simp] theorem deleted_append : deleted (tr ++ es) = deleted tr ++ deleted es :=
  List.filterMap_append

/-- Events that are none of `Finish`, a dispatch or a deletion. -/
def Idles (es : List (KEvent S Ev)) : Prop :=
  (∀ w : Watch, es.foldl Watch.event w = w) ∧ deleted es = [] ∧ ∀ t, .finish t ∉ es

theorem idles_nil : Idles ([] : List (KEvent S Ev)) := by simp [Idles, deleted]

theorem idles_ready (t : Tid) : Idles [(.ready t : KEvent S Ev)] := by
  simp [Idles, deleted, Watch.event]

theorem idles_sync (e : Event S Ev) : Idles [KEvent.sync e] := by
  simp [Idles, deleted, Watch.event]

theorem idles_acts (t : Tid) (es : List Ev) :
    Idles (es.map fun e => (.sync (.act t e) : KEvent S Ev)) := by
  refine ⟨fun w => ?_, by simp [deleted], by simp⟩
  induction es generalizing w with
  | nil => rfl
  | cons e es ih => exact ih w

theorem idles_V (σ : Kernel S Pc D) (s : S) (e : Event S Ev) :
    Idles (σ.semaphoreVReady s ++ [.sync e]) := by
  cases h : (σ.sem s).queue <;> simp [Idles, deleted, Kernel.semaphoreVReady, h, Watch.event]

/-- The deletion in `Scheduler::Run` is not seen by the watch. -/
theorem watch_destroyed (σ : Kernel S Pc D) (w : Watch) :
    (σ.destroyed : List (KEvent S Ev)).foldl Watch.event w = w := by
  cases h : σ.threadToBeDestroyed <;> simp [Kernel.destroyed, h, Watch.event]

theorem deleted_destroyed (σ : Kernel S Pc D) :
    deleted (σ.destroyed : List (KEvent S Ev)) = σ.threadToBeDestroyed.toList := by
  cases h : σ.threadToBeDestroyed <;> simp [Kernel.destroyed, h, deleted]

/-- The invariant. Until the dispatched thread has come back, `owed` is ahead of
`threadToBeDestroyed`. -/
structure Reaping (tr : List (KEvent S Ev)) (σ : Kernel S Pc D) : Prop where
  started_lt : ∀ t ∈ (watch tr).started, t < σ.nextTid
  current : σ.currentThread ∈ (watch tr).started
  ready : ∀ t ∈ σ.readyList, t ∈ (watch tr).started ↔ σ.resume t ≠ .threadRoot
  queued : ∀ s, ∀ t ∈ (σ.sem s).queue, t ∈ (watch tr).started
  owed : (watch tr).owed = true ↔ σ.threadToBeDestroyed ≠ none ∧
    (σ.ctrl = .switched → σ.resume σ.currentThread = .threadRoot)
  pending : ∀ t, σ.threadToBeDestroyed = some t → .finish t ∈ tr ∧ t ∉ deleted tr
  lending : σ.ctrl.asleep = true → σ.resume σ.currentThread = .inFinish →
    σ.threadToBeDestroyed = some σ.currentThread
  nodup : (deleted tr).Nodup
  finished : ∀ t ∈ deleted tr, .finish t ∈ tr
  collected : (watch tr).spaced = true → ∀ t, .finish t ∈ tr →
    σ.threadToBeDestroyed = some t ∨ t ∈ deleted tr
  lost : (watch tr).spaced = false →
    ∃ t, .finish t ∈ tr ∧ σ.threadToBeDestroyed ≠ some t ∧ t ∉ deleted tr

theorem reaping_boot : Reaping ([] : List (KEvent S Ev)) (Kernel.boot prog) := by
  constructor <;> simp [Kernel.boot, watch, deleted]

/-- Steps that finish, dispatch and delete no thread. -/
theorem Reaping.frame (h : Reaping tr σ) (hp : Placement tr σ) (hes : Idles es)
    (hcur : τ.currentThread = σ.currentThread) (hnext : τ.nextTid = σ.nextTid)
    (hresume : τ.resume = σ.resume)
    (hready : ∀ t ∈ τ.readyList, t ∈ σ.readyList ∨ ∃ s, t ∈ (σ.sem s).queue)
    (hqueue : ∀ s, ∀ t ∈ (τ.sem s).queue, t ∈ (σ.sem s).queue)
    (hdestroy : τ.threadToBeDestroyed = σ.threadToBeDestroyed) (hctrl : τ.ctrl ≠ .switched)
    (hroot : σ.ctrl = .switched → σ.resume σ.currentThread = .threadRoot)
    (hsleep : τ.ctrl.asleep = true → σ.ctrl.asleep = true) : Reaping (tr ++ es) τ := by
  obtain ⟨hwatch, hdel, hfin⟩ := hes
  have hw : watch (tr ++ es) = watch tr := by rw [watch_append, hwatch]
  have hd : deleted (tr ++ es) = deleted tr := by rw [deleted_append, hdel, List.append_nil]
  have hf : ∀ t, .finish t ∈ tr ++ es ↔ .finish t ∈ tr := by simp [hfin]
  constructor
  · simpa [hw, hnext] using h.started_lt
  · simpa [hw, hcur] using h.current
  · intro t ht
    rw [hw, hresume]
    rcases hready t ht with ht | ⟨s, ht⟩
    · exact h.ready t ht
    · obtain ⟨_, _, _, _, hres⟩ := hp.queued s t ht
      simp [h.queued s t ht, hres]
  · intro s t ht
    rw [hw]
    exact h.queued s t (hqueue s t ht)
  · rw [hw, h.owed, hdestroy]
    exact and_congr_right fun _ => ⟨fun _ hc => absurd hc hctrl, fun _ => hroot⟩
  · simpa [hd, hf, hdestroy] using h.pending
  · intro ha
    rw [hcur, hresume, hdestroy]
    exact h.lending (hsleep ha)
  · rw [hd]
    exact h.nodup
  · simpa [hd, hf] using h.finished
  · simpa [hw, hd, hf, hdestroy] using h.collected
  · simpa [hw, hd, hf, hdestroy] using h.lost

theorem Reaping.fork (h : Reaping tr σ) (hp : Placement tr σ) (hr : σ.ctrl = .run) (child : Pc)
    (k : Tid → Pc) (setup : Tid → D → D) :
    Reaping (tr ++ [.ready σ.nextTid]) (σ.fork child k setup) := by
  obtain ⟨hwatch, hdel, hfin⟩ : Idles [(.ready σ.nextTid : KEvent S Ev)] := idles_ready σ.nextTid
  have hw : watch (tr ++ [.ready σ.nextTid]) = watch tr := by rw [watch_append, hwatch]
  have hd : deleted (tr ++ [.ready σ.nextTid]) = deleted tr := by
    rw [deleted_append, hdel, List.append_nil]
  have hf : ∀ t, .finish t ∈ tr ++ [.ready σ.nextTid] ↔ .finish t ∈ tr := by simp [hfin]
  have hcur : σ.currentThread ≠ σ.nextTid := hp.current.ne
  have hctrl : (σ.fork child k setup).ctrl ≠ .switched ∧
      (σ.fork child k setup).ctrl.asleep = false := by
    refine ⟨?_, asleep_setLevel _ _⟩
    rcases Kernel.setLevel_ctrl _ _ with h | h <;> rw [Kernel.fork, h] <;> simp
  have hdestroy : (σ.fork child k setup).threadToBeDestroyed = σ.threadToBeDestroyed := by
    simp [Kernel.fork, Kernel.readyToRun]
  constructor
  · intro t ht
    rw [hw] at ht
    simpa [Kernel.fork] using Nat.lt_succ_of_lt (h.started_lt t ht)
  · simpa [hw, Kernel.fork] using h.current
  · intro t ht
    simp only [Kernel.fork, Kernel.setLevel_readyList, Kernel.readyToRun_readyList,
      List.mem_append, List.mem_singleton] at ht
    rw [hw]
    rcases ht with ht | rfl
    · have hne : t ≠ σ.nextTid := (hp.ready t ht).1.ne
      simpa [Kernel.fork, hne] using h.ready t ht
    · have hnot : σ.nextTid ∉ (watch tr).started := fun hm =>
        absurd (h.started_lt _ hm) (lt_irrefl _)
      simp [Kernel.fork, hnot]
  · simpa [hw, Kernel.fork] using h.queued
  · rw [hw, h.owed, hdestroy]
    exact and_congr_right fun _ => ⟨fun _ hc => absurd hc hctrl.1, fun _ hc => by simp [hr] at hc⟩
  · simpa [hd, hf, hdestroy] using h.pending
  · simp [hctrl.2]
  · rw [hd]
    exact h.nodup
  · simpa [hd, hf] using h.finished
  · simpa [hw, hd, hf, hdestroy] using h.collected
  · simpa [hw, hd, hf, hdestroy] using h.lost

theorem Reaping.block (h : Reaping tr σ) {s : S} {k : Pc} {old : IntStatus} {w : Bool} [DecidableEq S]
    (hp : Placement tr σ) (hr : σ.ctrl = .testP s k old w) :
    Reaping (tr ++ [])
      { σ with
        sem := Function.update σ.sem s ⟨(σ.sem s).value, (σ.sem s).queue ++ [σ.currentThread]⟩
        status := Function.update σ.status σ.currentThread .BLOCKED
        resume := Function.update σ.resume σ.currentThread (.inP s k old)
        ctrl := .sleep } := by
  have hn := (hp.current_not_listed (by simp [hr])).1
  rw [List.append_nil]
  constructor
  · exact h.started_lt
  · exact h.current
  · intro t ht
    have hne : t ≠ σ.currentThread := fun he => hn (he ▸ ht)
    simpa [hne] using h.ready t ht
  · intro s' t ht
    by_cases hs : s' = s
    · subst hs
      simp only [Function.update_self, List.mem_append, List.mem_singleton] at ht
      rcases ht with ht | rfl
      · exact h.queued s' t ht
      · exact h.current
    · simp only [Function.update_of_ne hs] at ht
      exact h.queued s' t ht
  · simpa [hr] using h.owed
  · exact h.pending
  · simp
  · exact h.nodup
  · exact h.finished
  · exact h.collected
  · exact h.lost

/-- `Finish` takes the place of the thread to be deleted, whether it is free or not. -/
theorem Reaping.finish (h : Reaping tr σ) (hp : Placement tr σ) (hr : σ.ctrl = .run) :
    Reaping (tr ++ [.finish σ.currentThread])
      { σ with
        level := .IntOff
        threadToBeDestroyed := some σ.currentThread
        status := Function.update σ.status σ.currentThread .BLOCKED
        resume := Function.update σ.resume σ.currentThread .inFinish
        ctrl := .sleep } := by
  have ha : σ.ctrl.asleep = false := by simp [hr]
  have hn := (hp.current_not_listed ha).1
  have hnew : .finish σ.currentThread ∉ tr := fun hf =>
    (hp.running ha).2 ((hp.finished _).mp hf)
  have howed : (watch tr).owed = true ↔ σ.threadToBeDestroyed ≠ none := by
    rw [h.owed]
    simp [hr]
  have hw : watch (tr ++ [.finish σ.currentThread]) =
      ⟨(watch tr).started, true, (watch tr).spaced && !(watch tr).owed⟩ := by
    rw [watch_append]
    rfl
  have hd : deleted (tr ++ [.finish σ.currentThread]) = deleted tr := by simp [deleted]
  have hnd : σ.currentThread ∉ deleted tr := fun hd => hnew (h.finished _ hd)
  constructor
  · simpa [hw] using h.started_lt
  · simpa [hw] using h.current
  · intro t ht
    have hne : t ≠ σ.currentThread := fun he => hn (he ▸ ht)
    simpa [hw, hne] using h.ready t ht
  · simpa [hw] using h.queued
  · simp [hw]
  · rintro t ⟨rfl⟩
    exact ⟨by simp, by rw [hd]; exact hnd⟩
  · simp
  · rw [hd]
    exact h.nodup
  · intro t ht
    rw [hd] at ht
    exact List.mem_append_left _ (h.finished t ht)
  · intro hs t ht
    simp only [hw, Bool.and_eq_true, Bool.not_eq_true'] at hs
    have hnone : σ.threadToBeDestroyed = none := by
      by_contra hne
      simp [howed.mpr hne] at hs
    rw [hd]
    rcases List.mem_append.mp ht with ht | ht
    · rcases h.collected hs.1 t ht with ht | ht
      · rw [hnone] at ht
        cases ht
      · exact .inr ht
    · simp only [List.mem_singleton, KEvent.finish.injEq] at ht
      exact .inl (by rw [ht])
  · intro hs
    rw [hd]
    simp only [hw, Bool.and_eq_false_iff, Bool.not_eq_false'] at hs
    -- the thread that was to be deleted, unless one has been lost before
    have hlost : ∃ t, .finish t ∈ tr ∧ t ∉ deleted tr := by
      rcases hs with hs | hs
      · obtain ⟨t, hf, -, hnd⟩ := h.lost hs
        exact ⟨t, hf, hnd⟩
      · obtain ⟨t, ht⟩ := Option.ne_none_iff_exists'.mp (howed.mp hs)
        exact ⟨t, h.pending t ht⟩
    obtain ⟨t, hf, hnd⟩ := hlost
    refine ⟨t, List.mem_append_left _ hf, ?_, hnd⟩
    rintro ⟨rfl⟩
    exact hnew hf

/-- A thread from the ready list is dispatched. It is a new one exactly if it has not run. -/
theorem Reaping.dispatch (h : Reaping tr σ) {next : Tid} {rest : List Tid}
    (he : σ.readyList = next :: rest) (hc : σ.ctrl ≠ .switched)
    (hwatch : ∀ w : Watch, es.foldl Watch.event w = w.event (.dispatch next : KEvent S Ev))
    (hdel : deleted es = []) (hfin : ∀ t, .finish t ∉ es) (hcur : τ.currentThread = next)
    (hnext : τ.nextTid = σ.nextTid) (hsem : τ.sem = σ.sem) (hctrl : τ.ctrl = .switched)
    (hdestroy : τ.threadToBeDestroyed = σ.threadToBeDestroyed)
    (hlt : next < σ.nextTid)
    (hresume : ∀ t ∈ σ.readyList, τ.resume t = σ.resume t)
    (hready : ∀ t ∈ τ.readyList, (t ∈ rest ∧ t ≠ next) ∨
      (t = σ.currentThread ∧ τ.resume t ≠ .threadRoot)) : Reaping (tr ++ es) τ := by
  have hw : watch (tr ++ es) = (watch tr).event (.dispatch next : KEvent S Ev) := by
    rw [watch_append, hwatch]
  have hd : deleted (tr ++ es) = deleted tr := by rw [deleted_append, hdel, List.append_nil]
  have hf : ∀ t, .finish t ∈ tr ++ es ↔ .finish t ∈ tr := by simp [hfin]
  have hmem : next ∈ σ.readyList := by simp [he]
  have hnew := h.ready next hmem
  rw [← hresume next hmem] at hnew
  constructor
  · simpa [hw, Watch.event, hnext, hlt] using h.started_lt
  · simp [hw, Watch.event, hcur]
  · intro t ht
    simp only [hw, Watch.event, List.mem_cons]
    rcases hready t ht with ⟨ht, hne⟩ | ⟨rfl, hne⟩
    · rw [hresume t (by simp [he, ht])]
      simpa [hne] using h.ready t (by simp [he, ht])
    · simp [h.current, hne]
  · intro s t ht
    rw [hsem] at ht
    simp [hw, Watch.event, h.queued s t ht]
  · have howed := h.owed
    simp only [hc, false_implies, and_true] at howed
    simp only [hw, Watch.event, Bool.and_eq_true, decide_eq_true_eq, hctrl, hcur, hdestroy, howed,
      hnew, forall_const, ne_eq, not_not]
  · simpa [hd, hf, hdestroy] using h.pending
  · simp [hctrl]
  · rw [hd]
    exact h.nodup
  · simpa [hd, hf] using h.finished
  · simpa [hw, Watch.event, hd, hf, hdestroy] using h.collected
  · simpa [hw, Watch.event, hd, hf, hdestroy] using h.lost

/-- A thread comes back to `Scheduler::Run` and deletes what is there to be deleted. -/
theorem Reaping.back (h : Reaping tr σ) (hr : σ.ctrl = .switched)
    (hroot : σ.resume σ.currentThread ≠ .threadRoot) (hcur : τ.currentThread = σ.currentThread)
    (hready : τ.readyList = σ.readyList) (hresume : τ.resume = σ.resume)
    (hnext : τ.nextTid = σ.nextTid) (hsem : τ.sem = σ.sem)
    (hctrl : τ.ctrl ≠ .switched ∧ τ.ctrl.asleep = false)
    (hdestroy : τ.threadToBeDestroyed = none) : Reaping (tr ++ σ.destroyed) τ := by
  have hw : watch (tr ++ σ.destroyed) = watch tr := by rw [watch_append, watch_destroyed]
  have hd : deleted (tr ++ σ.destroyed) = deleted tr ++ σ.threadToBeDestroyed.toList := by
    rw [deleted_append, deleted_destroyed]
  have hf : ∀ t, .finish t ∈ tr ++ σ.destroyed ↔ .finish t ∈ tr := by
    simp [Kernel.destroyed]
  constructor
  · simpa [hw, hnext] using h.started_lt
  · simpa [hw, hcur] using h.current
  · simpa [hw, hready, hresume] using h.ready
  · simpa [hw, hsem] using h.queued
  · rw [hw, h.owed, hdestroy]
    simp [hr, hroot]
  · simp [hdestroy]
  · simp [hctrl.2]
  · rw [hd]
    refine List.nodup_append.mpr ⟨h.nodup, ?_, ?_⟩
    · cases σ.threadToBeDestroyed <;> simp
    · rintro t ht u hu rfl
      exact (h.pending t (by simpa using hu)).2 ht
  · intro t ht
    rw [hf]
    rw [hd] at ht
    rcases List.mem_append.mp ht with ht | ht
    · exact h.finished t ht
    · exact (h.pending t (by simpa using ht)).1
  · intro hs t ht
    rw [hd]
    rw [hw] at hs
    rcases h.collected hs t ((hf t).mp ht) with ht | ht
    · exact .inr (by simp [ht])
    · exact .inr (List.mem_append_left _ ht)
  · intro hs
    rw [hw] at hs
    obtain ⟨t, hfin, hne, hnd⟩ := h.lost hs
    refine ⟨t, (hf t).mpr hfin, by simp [hdestroy], ?_⟩
    rw [hd]
    simp [hnd, hne]

variable [DecidableEq S]

/-- `V` adds no thread to a queue. -/
theorem mem_queue_of_semaphoreV {s s' : S} (ht : t ∈ ((σ.semaphoreV s).sem s').queue) :
    t ∈ (σ.sem s').queue := by
  rw [Kernel.semaphoreV_sem] at ht
  by_cases hs : s' = s
  · subst hs
    rw [Function.update_self] at ht
    exact List.mem_of_mem_tail ht
  · rwa [Function.update_of_ne hs] at ht

theorem mem_ready_of_semaphoreV {s : S} (ht : t ∈ (σ.semaphoreV s).readyList) :
    t ∈ σ.readyList ∨ ∃ s, t ∈ (σ.sem s).queue := by
  rw [Kernel.semaphoreV_readyList, List.mem_append] at ht
  exact ht.imp_right fun ht => ⟨s, List.mem_of_mem_take ht⟩

omit [DecidableEq S] in
theorem setLevel_not_switched (σ : Kernel S Pc D) (old : IntStatus) :
    (σ.setLevel old).ctrl ≠ .switched := by
  rcases Kernel.setLevel_ctrl σ old with h | h <;> rw [h] <;> simp

theorem reaping_step (hs : Kernel.Step prog σ es τ) (hp : Placement tr σ) (h : Reaping tr σ) :
    Reaping (tr ++ es) τ := by
  cases hs with
  | enterP hr hc | tick hr hc | idle hr he | endIdle hr | endTick hr =>
    exact h.frame hp idles_nil rfl rfl rfl (fun t ht => .inl ht) (fun s t ht => ht) rfl (by simp)
      (by simp [hr]) (by simp [hr])
  | act hr hc hf =>
    exact h.frame hp (idles_acts _ _) rfl rfl rfl (fun t ht => .inl ht) (fun s t ht => ht) rfl
      (by simp [hr]) (by simp [hr]) (by simp [hr])
  | @V s k hr hc =>
    exact h.frame hp (idles_V σ s _) (by simp) (by simp) (by simp)
      (fun t ht => mem_ready_of_semaphoreV (by simpa using ht))
      (fun s' t ht => mem_queue_of_semaphoreV (by simpa using ht)) (by simp)
      (setLevel_not_switched _ _) (by simp [hr]) (by simp)
  | fork hr hc => exact h.fork hp hr _ _ _
  | finish hr hc => exact h.finish hp hr
  | yieldStay hr he hpc b old =>
    refine h.frame hp idles_nil (by simp) (by simp) (by simp)
      (fun t ht => .inl (by simpa using ht)) (by simp) (by simp) (setLevel_not_switched _ _) ?_
      (by simp)
    rcases hr with hr | hr <;> simp [hr]
  | @yieldSwitch pc next rest hr he hpc b old =>
    have ha : σ.ctrl.asleep = false := by rcases hr with hr | hr <;> simp [hr]
    have hn := (hp.current_not_listed ha).1
    have hnd := hp.readyNodup
    rw [he, List.nodup_cons] at hnd
    refine h.dispatch he (by rcases hr with hr | hr <;> simp [hr]) (fun w => rfl)
      (by simp [deleted]) (by simp) rfl rfl rfl rfl rfl (hp.ready next (by simp [he])).1 ?_ ?_
    · intro t ht
      have hne : t ≠ σ.currentThread := fun he => hn (he ▸ ht)
      simp [hne]
    · intro t ht
      simp only [Kernel.dispatch_readyList, Kernel.readyToRun_readyList, List.mem_append,
        List.mem_singleton] at ht
      rcases ht with ht | rfl
      · exact .inl ⟨ht, fun he => hnd.1 (he ▸ ht)⟩
      · exact .inr ⟨rfl, by simp⟩
  | block hr hv => exact h.block hp hr
  | @pass s _ _ _ hr hv =>
    refine h.frame hp (idles_sync _) (by simp) (by simp) (by simp)
      (fun t ht => .inl (by simpa using ht)) ?_ (by simp) (setLevel_not_switched _ _)
      (by simp [hr]) (by simp)
    intro s' t ht
    by_cases hs : s' = s
    · subst hs
      simpa using ht
    · simpa [hs] using ht
  | @wake next rest hr he =>
    have hnd := hp.readyNodup
    rw [he, List.nodup_cons] at hnd
    exact h.dispatch he (by simp [hr]) (fun w => rfl) (by simp [deleted]) (by simp) rfl rfl rfl rfl
      rfl (hp.ready next (by simp [he])).1 (fun t ht => rfl)
      (fun t ht => .inl ⟨ht, fun he => hnd.1 (he ▸ ht)⟩)
  | root hr hc =>
    exact h.frame hp idles_nil (by simp) (by simp) (by simp) (fun t ht => .inl (by simpa using ht))
      (fun s t ht => by simpa using ht) (by simp) (setLevel_not_switched _ _) (fun _ => hc)
      (by simp)
  | backInYield hr hc =>
    exact h.back hr (by simp [hc]) (by simp) (by simp) (by simp) (by simp) (by simp)
      ⟨setLevel_not_switched _ _, by simp⟩ (by simp [Kernel.afterSwitch])
  | backInP hr hc =>
    exact h.back hr (by simp [hc]) rfl rfl rfl rfl rfl ⟨by simp, by simp⟩ rfl
  | @handlerV s hr hd =>
    refine h.frame hp (idles_V σ s _) (by simp) (by simp) (by simp)
      (fun t ht => mem_ready_of_semaphoreV ht) (fun s' t ht => mem_queue_of_semaphoreV ht)
      (by simp) ?_ ?_ (by simp)
    all_goals rcases hr with hr | hr <;> simp [hr]
  | handler hr b =>
    refine h.frame hp idles_nil rfl rfl rfl (fun t ht => .inl ht) (fun s t ht => ht) rfl ?_ ?_ id
    all_goals rcases hr with hr | hr <;> simp [hr]

theorem reaping_run (h : (kernel prog).Run tr σ) : Reaping tr σ := by
  refine h.invariant ?_ ?_
  · rintro σ rfl
    exact reaping_boot
  · intro tr σ es τ hr hi hs
    exact reaping_step (Kernel.step_of_kernel hs) (placement_run hr) hi

/-- In every run, all finished threads are deleted once and none while it is in use, if and
only if a thread that has run before is dispatched between any two calls of `Finish`. -/
theorem collected_iff (h : (kernel prog).Run tr σ) : Collected tr σ ↔ Spaced tr := by
  have hp := placement_run h
  have hi := reaping_run h
  constructor
  · intro hc
    by_contra hs
    obtain ⟨t, hfin, hne, hnd⟩ := hi.lost (by simpa [Spaced] using hs)
    rcases hc.once t hfin with ⟨ht, -⟩ | ⟨-, ht⟩
    · exact hne ht
    · rw [List.count_eq_zero.mpr hnd] at ht
      cases ht
  · intro hs
    refine ⟨fun t hfin => ?_, fun t ht => ?_⟩
    · by_cases hd : t ∈ deleted tr
      · refine .inr ⟨fun hpend => (hi.pending t hpend).2 hd, ?_⟩
        exact List.count_eq_one_of_mem hi.nodup hd
      · rcases hi.collected hs t hfin with hpend | hd'
        · exact .inl ⟨hpend, List.count_eq_zero.mpr hd⟩
        · exact absurd hd' hd
    · have hfin := (hp.finished t).mp (hi.finished t ht)
      refine ⟨hi.finished t ht, ?_, fun hr => (hp.ready t hr).2.2 hfin, fun s hq => ?_⟩
      · rintro rfl
        by_cases ha : σ.ctrl.asleep = true
        · exact (hi.pending _ (hi.lending ha hfin)).2 ht
        · exact (hp.running (by simpa using ha)).2 hfin
      · obtain ⟨_, _, _, _, hres⟩ := hp.queued s t hq
        simp [hfin] at hres

/-- The child has finished, and its parent has come back from `P` and deleted it. -/
theorem collected_iff_handOff : ∃ tr σ, (kernel handOff).Run tr σ ∧
    (Collected tr σ ↔ Spaced tr) ∧ deleted tr = [1] ∧ Spaced tr := by
  obtain ⟨tr, σ, hr, _, hp⟩ := System.exists_run_of_exec (Kernel.boot handOff)
    (Kernel.next handOff) (List.replicate 12 (.cpu ()))
    (fun r => decide (deleted r.2 = [1] ∧ (watch r.2).spaced = true)) (by decide +kernel)
  have hp := of_decide_eq_true hp
  exact ⟨tr, σ, hr, collected_iff hr, hp.1, hp.2⟩

/-- A thread that forks two others and finishes, and so do they. -/
def finishers : Program Unit ℕ Unit Unit Unit where
  code _ pc :=
    match pc with
    | 0 => .fork 10 (fun _ => 1) (fun _ d => d)
    | 1 => .fork 10 (fun _ => 2) (fun _ d => d)
    | _ => .finish
  value _ := 0
  start := 0
  data := ()
  device _ := false
  switchOut _ d := d
  switchIn _ d := d
  interrupt d := d

/-- The main thread finishes, and the first of the others does so on its first dispatch: the
main thread is never deleted. -/
theorem finished_not_collected : ∃ tr σ, (kernel finishers).Run tr σ ∧ .finish 0 ∈ tr ∧
    σ.threadToBeDestroyed = some 1 ∧ deleted tr = [] ∧ ¬Collected tr σ := by
  obtain ⟨tr, σ, hr, _, hp⟩ := System.exists_run_of_exec (Kernel.boot finishers)
    (Kernel.next finishers) (List.replicate 9 (.cpu ()))
    (fun r => decide (.finish 0 ∈ r.2 ∧ r.1.threadToBeDestroyed = some 1 ∧ deleted r.2 = []))
    (by decide +kernel)
  obtain ⟨hfin, hpend, hdel⟩ := of_decide_eq_true hp
  refine ⟨tr, σ, hr, hfin, hpend, hdel, fun hc => ?_⟩
  rcases hc.once 0 hfin with ⟨h, -⟩ | ⟨-, h⟩
  · have h01 : (1 : ℕ) = 0 := Option.some.inj (hpend.symm.trans h)
    cases h01
  · have h01 : deleted tr = [] := hdel
    rw [h01] at h
    cases h

end Nachos
