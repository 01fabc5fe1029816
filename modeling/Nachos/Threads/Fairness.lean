import Nachos.Lib.Waiting
import Nachos.Threads.Placement

/-!
# No thread starves

A thread on the ready list is dispatched after those in front of it, and a thread asleep in `P` is
woken after those in front of it, whatever the threads do. The running thread has to give up the
processor again and again, of its own or because of the timer.
-/
namespace Nachos

open Concurrent System

variable {S Pc D Ev C : Type} [DecidableEq S] {prog : Program S Pc D Ev C}
  {σ τ : Kernel S Pc D} {tr es : List (KEvent S Ev)} {t : Tid} {s : S}

/-- The running thread is about to let another one run: it sleeps, or calls `Yield`, or the timer
has asked for it. -/
def GivesUp (prog : Program S Pc D Ev C) (σ : Kernel S Pc D) : Prop :=
  σ.ctrl = .sleep ∨ (σ.ctrl = .tick ∧ σ.yieldOnReturn = true) ∨
    (σ.ctrl = .run ∧ ∃ k, prog.code σ.currentThread (σ.pc σ.currentThread) = .yield k)

/-! ## The ready list -/

theorem semaphoreV_yieldOnReturn (σ : Kernel S Pc D) (s : S) :
    (σ.semaphoreV s).yieldOnReturn = σ.yieldOnReturn := by
  unfold Kernel.semaphoreV
  split <;> rfl

/-- A step dispatches one thread at most, and it becomes the current one. -/
theorem dispatched_step (hs : Kernel.Step prog σ es τ) :
    dispatched es = [] ∨ dispatched es = [τ.currentThread] := by
  cases hs with
  | V => exact .inl (semaphoreV_events σ _ _).2.1
  | handlerV => exact .inl (semaphoreV_events σ _ _).2.1
  | act => exact .inl (quiet_acts _ _).2.1
  | backInYield => exact .inl (quiet_destroyed σ).2.1
  | backInP => exact .inl (quiet_destroyed σ).2.1
  | yieldSwitch => exact .inr rfl
  | wake => exact .inr rfl
  | _ => exact .inl rfl

/-- What a step does to the ready list. -/
theorem Placement.readyList_step (h : Placement tr σ) (hs : Kernel.Step prog σ es τ) :
    σ.readyList ++ readied es = dispatched es ++ τ.readyList := by
  have hnext := (placement_step hs h).fifo
  rw [readied_append, dispatched_append, h.fifo, List.append_assoc, List.append_assoc] at hnext
  exact List.append_cancel_left hnext

theorem readyList_queue (p : Path (kernel prog)) :
    Queue (fun n => (p.state n).readyList) fun n => dispatched (p.events n) := by
  intro n
  have hs := Kernel.step_of_kernel (p.step n)
  constructor
  · rcases dispatched_step hs with hnone | hone
    · simp [hnone]
    · simp [hone]
  · exact ⟨_, (placement_run (p.run n)).readyList_step hs⟩

/-- A thread that gives up the processor does so at once, unless the simulator is still calling
handlers. -/
theorem dispatched_of_givesUp (hs : (kernel prog).step σ es τ) (hg : GivesUp prog σ)
    (hl : σ.readyList ≠ []) :
    dispatched es ≠ [] ∨ (τ.ctrl = .tick ∧ τ.yieldOnReturn = true) := by
  obtain ⟨next, rest, hl⟩ := List.exists_cons_of_ne_nil hl
  obtain ⟨a, ha⟩ := hs
  rcases hg with hr | ⟨hr, hy⟩ | ⟨hr, k, hc⟩
  · cases a with
    | cpu c =>
      simp only [Kernel.next, hr, Kernel.sleep, hl, Option.some.injEq, Prod.mk.injEq] at ha
      left
      simp [← ha.2, dispatched]
    | interrupt h => simp [Kernel.next, hr] at ha
  · cases a with
    | cpu c =>
      simp only [Kernel.next, hr, Kernel.endTick, hy, if_true, Kernel.yield, hl, Option.some.injEq,
        Prod.mk.injEq] at ha
      left
      simp [← ha.2, dispatched]
    | interrupt h =>
      right
      cases h with
      | V s =>
        simp only [Kernel.next, hr, Kernel.handler] at ha
        split at ha
        · cases ha
          simp [hr, semaphoreV_yieldOnReturn, hy]
        · cases ha
      | poll =>
        simp only [Kernel.next, hr, Kernel.handler, Option.some.injEq, Prod.mk.injEq] at ha
        simp [← ha.1, hy]
      | timer =>
        simp only [Kernel.next, hr, Kernel.handler, Option.some.injEq, Prod.mk.injEq] at ha
        simp [← ha.1]
  · cases a with
    | cpu c =>
      simp only [Kernel.next, hr, Kernel.thread, hc, Kernel.yield, hl, Option.some.injEq,
        Prod.mk.injEq] at ha
      left
      simp [← ha.2, dispatched]
    | interrupt h => simp [Kernel.next, hr] at ha

/-- What the hypotheses below ask of an infinite run. -/
structure Preemptive (p : Path (kernel prog)) : Prop where
  /-- The running thread gives up the processor again and again. -/
  givesUp : ∀ n, ∃ m, n ≤ m ∧ GivesUp prog (p.state m)
  /-- The handlers that are due come to an end. -/
  returns : ∀ n, ∃ m, n ≤ m ∧ (p.state m).ctrl ≠ .tick

theorem Preemptive.dispatches {p : Path (kernel prog)} (hp : Preemptive p) (n : ℕ) :
    ∃ m, n ≤ m ∧ ((p.state m).readyList ≠ [] → ∃ k, m ≤ k ∧ dispatched (p.events k) ≠ []) := by
  obtain ⟨m, hnm, hg⟩ := hp.givesUp n
  refine ⟨m, hnm, fun hl => ?_⟩
  by_contra hnone
  push Not at hnone
  -- the timer's request stands until the handlers return
  have hwants : ∀ k, m + 1 ≤ k → (p.state k).ctrl = .tick ∧ (p.state k).yieldOnReturn = true := by
    intro k hk
    induction k, hk using Nat.le_induction with
    | base =>
      exact (dispatched_of_givesUp (p.step m) hg hl).resolve_left (not_not.mpr (hnone m le_rfl))
    | succ k hk ih =>
      obtain ⟨come, hline⟩ := (readyList_queue p).stay (show m ≤ k by omega)
        fun i hi _ => hnone i hi
      refine (dispatched_of_givesUp (p.step k) (.inr (.inl ih)) ?_).resolve_left
        (not_not.mpr (hnone k (by omega)))
      simp only [hline]
      simp [hl]
  obtain ⟨k, hk, hne⟩ := hp.returns (m + 1)
  exact hne (hwants k hk).1

theorem Preemptive.dispatched {p : Path (kernel prog)} (hp : Preemptive p) {n : ℕ}
    {front back : List Tid} (h : (p.state n).readyList = front ++ t :: back) :
    ∃ m, n ≤ m ∧ (p.state (m + 1)).currentThread = t ∧
      during (fun k => Nachos.dispatched (p.events k)) n (m + 1) = front ++ [t] := by
  obtain ⟨m, hnm, hm, hduring⟩ := (readyList_queue p).served hp.dispatches h
  refine ⟨m, hnm, ?_, hduring⟩
  rcases dispatched_step (Kernel.step_of_kernel (p.step m)) with hnone | hone
  · simp [hnone] at hm
  · simpa [hone] using hm

/-! ## The queue of a semaphore -/

/-- A call of `V` of this semaphore. -/
def KEvent.isV (s : S) : KEvent S Ev → Bool
  | .sync (.V _ s') => decide (s' = s)
  | _ => false

/-- The threads that a call of `V` of this semaphore wakes. -/
def wokenFrom (s : S) (es : List (KEvent S Ev)) : List Tid :=
  if es.any (·.isV s) then readied es else []

theorem queue_semaphoreV (s s' : S) : ((σ.semaphoreV s').sem s).queue =
    if s' = s then (σ.sem s).queue.tail else (σ.sem s).queue := by
  rw [Kernel.semaphoreV_sem, Function.update_apply]
  by_cases h : s = s'
  · simp [h]
  · simp [h, Ne.symm h]

theorem isV_semaphoreV (σ : Kernel S Pc D) (s s' : S) (t : Option Tid) :
    (σ.semaphoreVReady s' ++ [(.sync (.V t s') : KEvent S Ev)]).any (·.isV s) =
      decide (s' = s) := by
  cases hq : (σ.sem s').queue <;> simp [Kernel.semaphoreVReady, hq, KEvent.isV]

/-- What one step does to the queue of a semaphore. -/
theorem queue_step (hs : Kernel.Step prog σ es τ) (s : S) :
    (es.any (·.isV s) = true ∧ (τ.sem s).queue = (σ.sem s).queue.tail ∧
      readied es = (σ.sem s).queue.take 1) ∨
    (es.any (·.isV s) = false ∧ ∃ come, (τ.sem s).queue = (σ.sem s).queue ++ come) := by
  cases hs with
  | @V s' _ hr hc =>
    rw [isV_semaphoreV, (semaphoreV_events σ _ _).1]
    simp only [Kernel.setLevel_sem, queue_semaphoreV]
    by_cases h : s' = s
    · subst h
      simp
    · right
      simp [h]
  | @handlerV s' hr hd =>
    rw [isV_semaphoreV, (semaphoreV_events σ _ _).1]
    simp only [queue_semaphoreV]
    by_cases h : s' = s
    · subst h
      simp
    · right
      simp [h]
  | @block s' _ _ _ hr hv =>
    right
    refine ⟨rfl, ?_⟩
    by_cases h : s = s'
    · subst h
      exact ⟨[σ.currentThread], by simp⟩
    · exact ⟨[], by simp [h]⟩
  | @pass s' _ _ _ hr hv =>
    right
    refine ⟨rfl, [], ?_⟩
    by_cases h : s = s' <;> simp [h]
  | act =>
    right
    exact ⟨by simp [KEvent.isV], [], by simp⟩
  | backInYield =>
    right
    exact ⟨by simp [KEvent.isV, Kernel.destroyed], [], by simp⟩
  | backInP =>
    right
    exact ⟨by simp [KEvent.isV, Kernel.destroyed], [], by simp⟩
  | _ =>
    right
    exact ⟨rfl, [], by simp [Kernel.fork]⟩

/-- A thread that has been woken is ready. -/
theorem Placement.ready_of_woken (h : Placement tr σ) (hs : Kernel.Step prog σ es τ)
    (hw : t ∈ wokenFrom s es) : t ∈ τ.readyList := by
  rw [wokenFrom] at hw
  split at hw
  · rename_i hV
    have hnone : dispatched es = [] := by
      cases hs with
      | V => exact (semaphoreV_events σ _ _).2.1
      | handlerV => exact (semaphoreV_events σ _ _).2.1
      | act => exact (quiet_acts _ _).2.1
      | backInYield => exact (quiet_destroyed σ).2.1
      | backInP => exact (quiet_destroyed σ).2.1
      | yieldSwitch => cases hV
      | wake => cases hV
      | _ => rfl
    have hline := h.readyList_step hs
    rw [hnone, List.nil_append] at hline
    rw [← hline]
    exact List.mem_append_right _ hw
  · cases hw

theorem semaphore_queue (p : Path (kernel prog)) (s : S) :
    Queue (fun n => ((p.state n).sem s).queue) fun n => wokenFrom s (p.events n) := by
  intro n
  show (wokenFrom s (p.events n)).length ≤ 1 ∧ ∃ come, ((p.state n).sem s).queue ++ come =
    wokenFrom s (p.events n) ++ ((p.state (n + 1)).sem s).queue
  rcases queue_step (Kernel.step_of_kernel (p.step n)) s with ⟨hV, hq, hr⟩ | ⟨hV, come, hq⟩
  · rw [wokenFrom, if_pos hV, hr, hq]
    refine ⟨by simp, [], ?_⟩
    rw [List.append_nil, ← List.drop_one, List.take_append_drop]
  · rw [wokenFrom, hV, hq]
    exact ⟨by simp, come, rfl⟩

theorem wokenFrom_ne_nil (p : Path (kernel prog)) (hV : ∀ n, ∃ m, n ≤ m ∧
      ∃ u, (.sync (.V u s) : KEvent S Ev) ∈ p.events m) (n : ℕ) :
    ∃ m, n ≤ m ∧
      (((p.state m).sem s).queue ≠ [] → ∃ k, m ≤ k ∧ wokenFrom s (p.events k) ≠ []) := by
  obtain ⟨m, hnm, u, hu⟩ := hV n
  refine ⟨m, hnm, fun hne => ⟨m, le_rfl, ?_⟩⟩
  have hany : (p.events m).any (·.isV s) = true :=
    List.any_eq_true.mpr ⟨_, hu, by simp [KEvent.isV]⟩
  rcases queue_step (Kernel.step_of_kernel (p.step m)) s with ⟨-, -, hr⟩ | ⟨hnot, -⟩
  · rw [wokenFrom, if_pos hany, hr]
    simpa using hne
  · rw [hany] at hnot
    cases hnot

/-- Nobody starves. A ready thread runs after the threads in front of it, each of them once, and
before any other. A thread asleep on a semaphore is woken, if `V` is called again and again, after
those in front of it, and runs in its turn. -/
theorem no_starvation (p : Path (kernel prog)) (hp : Preemptive p) :
    (∀ n front t back, (p.state n).readyList = front ++ t :: back →
      ∃ m, n ≤ m ∧ (p.state (m + 1)).currentThread = t ∧
        during (fun k => dispatched (p.events k)) n (m + 1) = front ++ [t]) ∧
    ∀ s, (∀ n, ∃ m, n ≤ m ∧ ∃ u, (.sync (.V u s) : KEvent S Ev) ∈ p.events m) →
      ∀ n front t back, ((p.state n).sem s).queue = front ++ t :: back →
        ∃ m, n ≤ m ∧ during (fun k => wokenFrom s (p.events k)) n (m + 1) = front ++ [t] ∧
          ∃ ahead behind, (p.state (m + 1)).readyList = ahead ++ t :: behind ∧
            ∃ m', m + 1 ≤ m' ∧ (p.state (m' + 1)).currentThread = t ∧
              during (fun k => dispatched (p.events k)) (m + 1) (m' + 1) = ahead ++ [t] := by
  refine ⟨fun n front t back h => hp.dispatched h, fun s hV n front t back h => ?_⟩
  obtain ⟨m, hnm, hm, hduring⟩ := (semaphore_queue p s).served (wokenFrom_ne_nil p hV) h
  refine ⟨m, hnm, hduring, ?_⟩
  have hready := (placement_run (p.run m)).ready_of_woken (Kernel.step_of_kernel (p.step m))
    (show t ∈ wokenFrom s (p.events m) by simp [hm])
  obtain ⟨ahead, behind, hsplit⟩ := List.append_of_mem hready
  exact ⟨ahead, behind, hsplit, hp.dispatched hsplit⟩

/-- The main thread calls `V` and yields, over and over. The other one only calls `P`. -/
def handTurns : Program Unit ℕ Unit Unit Unit where
  code _ pc :=
    match pc with
    | 0 => .fork 10 (fun _ => 1) (fun _ d => d)
    | 1 => .V () 2
    | 2 => .yield 1
    | _ => .P () 10
  value _ := 0
  start := 0
  data := ()
  device _ := false
  switchOut _ d := d
  switchIn _ d := d
  interrupt d := d

/-- One step of it, when no interrupt comes. -/
def handTurn (σ : Kernel Unit ℕ Unit) : Kernel Unit ℕ Unit :=
  ((Kernel.next handTurns σ (.cpu ())).map Prod.fst).getD σ

attribute [ext] Kernel

/-- After eleven steps all is as it was. -/
theorem handTurn_recurs :
    handTurn^[13 + 11] (Kernel.boot handTurns) = handTurn^[13] (Kernel.boot handTurns) := by
  apply Kernel.ext
  case status | resume | pc =>
    funext t
    rcases t with _ | _ | t <;> cbv
  case sem =>
    funext s
    cases s
    cbv
  all_goals decide +kernel

theorem handTurn_goes (n : ℕ) :
    (Kernel.next handTurns (handTurn^[n] (Kernel.boot handTurns)) (.cpu ())).map Prod.fst =
      some (handTurn^[n + 1] (Kernel.boot handTurns)) := by
  have hsome : ∀ j < 13 + 11, (Kernel.next handTurns
      (handTurn^[j] (Kernel.boot handTurns)) (.cpu ())).isSome = true := by decide +kernel
  obtain ⟨j, hj, hn⟩ := iterate_before (by decide) handTurn_recurs n
  obtain ⟨r, hr⟩ := Option.isSome_iff_exists.mp (hsome j hj)
  rw [Function.iterate_succ_apply', hn, handTurn, hr]
  rfl

/-- The run without interrupts. -/
def handTurnsPath : Path (kernel handTurns) :=
  .ofIterate (Kernel.boot handTurns) (Kernel.next handTurns) (.cpu ()) handTurn handTurn_goes

theorem handTurnsPath_recurs (i n : ℕ) : ∃ m, n ≤ m ∧
    handTurnsPath.state m = handTurn^[i + 13] (Kernel.boot handTurns) := by
  obtain ⟨m, hnm, hm⟩ := iterate_recurs (by decide) handTurn_recurs n
  refine ⟨i + m, by omega, ?_⟩
  show handTurn^[i + m] _ = _
  rw [Function.iterate_add_apply, hm, ← Function.iterate_add_apply]

theorem preemptive_handTurns : Preemptive handTurnsPath := by
  constructor
  · intro n
    obtain ⟨m, hnm, hm⟩ := handTurnsPath_recurs 4 n
    refine ⟨m, hnm, .inr (.inr ?_)⟩
    rw [hm]
    exact ⟨by decide +kernel, 1, by cbv⟩
  · intro n
    obtain ⟨m, hnm, hm⟩ := handTurnsPath_recurs 0 n
    refine ⟨m, hnm, ?_⟩
    rw [hm]
    decide +kernel

/-- The second thread is ready at first, and later asleep. -/
theorem no_starvation_handTurns :
    (∃ m, 1 ≤ m ∧ during (fun k => dispatched (handTurnsPath.events k)) 1 (m + 1) = [1]) ∧
    ∃ m, 13 ≤ m ∧ during (fun k => wokenFrom () (handTurnsPath.events k)) 13 (m + 1) = [1] := by
  have hV : ∀ n, ∃ m, n ≤ m ∧
      ∃ u, (.sync (.V u ()) : KEvent Unit Unit) ∈ handTurnsPath.events m := by
    intro n
    obtain ⟨m, hnm, hm⟩ := handTurnsPath_recurs 2 n
    refine ⟨m, hnm, some 0, ?_⟩
    have hevents : handTurnsPath.events m = ((Kernel.next handTurns (handTurnsPath.state m)
      (.cpu ())).map Prod.snd).getD [] := rfl
    rw [hevents, hm]
    decide +kernel
  have hready : (handTurnsPath.state 1).readyList = [] ++ 1 :: [] := by decide +kernel
  have hasleep : ((handTurnsPath.state 13).sem ()).queue = [] ++ 1 :: [] := by decide +kernel
  obtain ⟨hfirst, hsecond⟩ := no_starvation handTurnsPath preemptive_handTurns
  obtain ⟨m, hm, -, hduring⟩ := hfirst 1 [] 1 [] hready
  obtain ⟨m', hm', hduring', -⟩ := hsecond () hV 13 [] 1 [] hasleep
  exact ⟨⟨m, hm, hduring⟩, m', hm', hduring'⟩

end Nachos
