import Nachos.Threads.Kernel

/-! What one step of the thread system can do, said once for every invariant. -/
namespace Nachos

open Concurrent

variable {S Pc D Ev C : Type}

namespace Kernel

section Fields
variable (σ : Kernel S Pc D) (s : S) (t : Tid) (old : IntStatus) (prog : Program S Pc D Ev C)

@[simp] theorem readyToRun_currentThread : (σ.readyToRun t).currentThread = σ.currentThread := rfl
@[simp] theorem readyToRun_readyList : (σ.readyToRun t).readyList = σ.readyList ++ [t] := rfl
@[simp] theorem readyToRun_status :
    (σ.readyToRun t).status = Function.update σ.status t .READY := rfl
@[simp] theorem readyToRun_resume : (σ.readyToRun t).resume = σ.resume := rfl
@[simp] theorem readyToRun_pc : (σ.readyToRun t).pc = σ.pc := rfl
@[simp] theorem readyToRun_nextTid : (σ.readyToRun t).nextTid = σ.nextTid := rfl
@[simp] theorem readyToRun_sem : (σ.readyToRun t).sem = σ.sem := rfl
@[simp] theorem readyToRun_ctrl : (σ.readyToRun t).ctrl = σ.ctrl := rfl
@[simp] theorem readyToRun_level : (σ.readyToRun t).level = σ.level := rfl
@[simp] theorem readyToRun_data : (σ.readyToRun t).data = σ.data := rfl

@[simp] theorem setLevel_currentThread : (σ.setLevel old).currentThread = σ.currentThread := by
  cases old <;> rfl
@[simp] theorem setLevel_readyList : (σ.setLevel old).readyList = σ.readyList := by
  cases old <;> rfl
@[simp] theorem setLevel_status : (σ.setLevel old).status = σ.status := by cases old <;> rfl
@[simp] theorem setLevel_resume : (σ.setLevel old).resume = σ.resume := by cases old <;> rfl
@[simp] theorem setLevel_pc : (σ.setLevel old).pc = σ.pc := by cases old <;> rfl
@[simp] theorem setLevel_nextTid : (σ.setLevel old).nextTid = σ.nextTid := by cases old <;> rfl
@[simp] theorem setLevel_sem : (σ.setLevel old).sem = σ.sem := by cases old <;> rfl
@[simp] theorem setLevel_data : (σ.setLevel old).data = σ.data := by cases old <;> rfl

@[simp] theorem setLevel_threadToBeDestroyed :
    (σ.setLevel old).threadToBeDestroyed = σ.threadToBeDestroyed := by cases old <;> rfl

theorem setLevel_ctrl : (σ.setLevel old).ctrl = .tick ∨ (σ.setLevel old).ctrl = .run := by
  cases old <;> simp [setLevel]

@[simp] theorem dispatch_currentThread : (σ.dispatch prog t).currentThread = t := rfl
@[simp] theorem dispatch_readyList : (σ.dispatch prog t).readyList = σ.readyList := rfl
@[simp] theorem dispatch_status :
    (σ.dispatch prog t).status = Function.update σ.status t .RUNNING := rfl
@[simp] theorem dispatch_resume : (σ.dispatch prog t).resume = σ.resume := rfl
@[simp] theorem dispatch_pc : (σ.dispatch prog t).pc = σ.pc := rfl
@[simp] theorem dispatch_nextTid : (σ.dispatch prog t).nextTid = σ.nextTid := rfl
@[simp] theorem dispatch_sem : (σ.dispatch prog t).sem = σ.sem := rfl
@[simp] theorem dispatch_ctrl : (σ.dispatch prog t).ctrl = .switched := rfl
@[simp] theorem dispatch_data :
    (σ.dispatch prog t).data = prog.switchOut σ.currentThread σ.data := rfl

@[simp] theorem afterSwitch_currentThread :
    (σ.afterSwitch prog).currentThread = σ.currentThread := rfl
@[simp] theorem afterSwitch_readyList : (σ.afterSwitch prog).readyList = σ.readyList := rfl
@[simp] theorem afterSwitch_status : (σ.afterSwitch prog).status = σ.status := rfl
@[simp] theorem afterSwitch_resume : (σ.afterSwitch prog).resume = σ.resume := rfl
@[simp] theorem afterSwitch_pc : (σ.afterSwitch prog).pc = σ.pc := rfl
@[simp] theorem afterSwitch_nextTid : (σ.afterSwitch prog).nextTid = σ.nextTid := rfl
@[simp] theorem afterSwitch_sem : (σ.afterSwitch prog).sem = σ.sem := rfl
@[simp] theorem afterSwitch_data :
    (σ.afterSwitch prog).data = prog.switchIn σ.currentThread σ.data := rfl

variable [DecidableEq S]

/-- `V` moves the first thread of the queue to the ready list. -/
@[simp] theorem semaphoreV_readyList :
    (σ.semaphoreV s).readyList = σ.readyList ++ (σ.sem s).queue.take 1 := by
  unfold semaphoreV
  split <;> simp_all

@[simp] theorem semaphoreV_sem : (σ.semaphoreV s).sem =
    Function.update σ.sem s ⟨incr (σ.sem s).value, (σ.sem s).queue.tail⟩ := by
  unfold semaphoreV
  split <;> simp_all

theorem semaphoreV_status (t : Tid) : (σ.semaphoreV s).status t =
    if t ∈ (σ.sem s).queue.take 1 then .READY else σ.status t := by
  unfold semaphoreV
  split <;> simp_all [Function.update_apply]

@[simp] theorem semaphoreV_currentThread : (σ.semaphoreV s).currentThread = σ.currentThread := by
  unfold semaphoreV
  split <;> rfl
@[simp] theorem semaphoreV_resume : (σ.semaphoreV s).resume = σ.resume := by
  unfold semaphoreV
  split <;> rfl
@[simp] theorem semaphoreV_pc : (σ.semaphoreV s).pc = σ.pc := by
  unfold semaphoreV
  split <;> rfl
@[simp] theorem semaphoreV_nextTid : (σ.semaphoreV s).nextTid = σ.nextTid := by
  unfold semaphoreV
  split <;> rfl
@[simp] theorem semaphoreV_ctrl : (σ.semaphoreV s).ctrl = σ.ctrl := by
  unfold semaphoreV
  split <;> rfl
@[simp] theorem semaphoreV_level : (σ.semaphoreV s).level = σ.level := by
  unfold semaphoreV
  split <;> rfl
@[simp] theorem semaphoreV_data : (σ.semaphoreV s).data = σ.data := by
  unfold semaphoreV
  split <;> rfl
@[simp] theorem semaphoreV_threadToBeDestroyed :
    (σ.semaphoreV s).threadToBeDestroyed = σ.threadToBeDestroyed := by
  unfold semaphoreV
  split <;> rfl

end Fields

variable [DecidableEq S] {prog : Program S Pc D Ev C} {σ τ : Kernel S Pc D} {es : List (KEvent S Ev)} {c : C}

/-- The transitions of the thread system. The current thread's code moves only in
`V`, `yieldStay`, `yieldSwitch`, `tick`, `fork`, `act` and `pass`. -/
inductive Step (prog : Program S Pc D Ev C) (σ : Kernel S Pc D) :
    List (KEvent S Ev) → Kernel S Pc D → Prop
  | enterP {s : S} {k : Pc} (hr : σ.ctrl = .run)
      (hc : prog.code σ.currentThread (σ.pc σ.currentThread) = .P s k) :
      Step prog σ [] { σ with level := .IntOff, ctrl := .testP s k σ.level false }
  | V {s : S} {k : Pc} (hr : σ.ctrl = .run)
      (hc : prog.code σ.currentThread (σ.pc σ.currentThread) = .V s k) :
      Step prog σ (σ.semaphoreVReady s ++ [.sync (.V (some σ.currentThread) s)])
        (setLevel { σ.semaphoreV s with pc := Function.update σ.pc σ.currentThread k } σ.level)
  | tick {k : Pc} (hr : σ.ctrl = .run)
      (hc : prog.code σ.currentThread (σ.pc σ.currentThread) = .tick k) :
      Step prog σ []
        { σ with
          pc := Function.update σ.pc σ.currentThread k, level := .IntOff, ctrl := .tick }
  | fork {child : Pc} {k : Tid → Pc} {setup : Tid → D → D} (hr : σ.ctrl = .run)
      (hc : prog.code σ.currentThread (σ.pc σ.currentThread) = .fork child k setup) :
      Step prog σ [.ready σ.nextTid] (σ.fork child k setup)
  | act {f : C → D → Option (Pc × D × List Ev)} {c : C} {k : Pc} {d : D} {es : List Ev}
      (hr : σ.ctrl = .run) (hc : prog.code σ.currentThread (σ.pc σ.currentThread) = .act f)
      (hf : f c σ.data = some (k, d, es)) :
      Step prog σ (es.map fun e => .sync (.act σ.currentThread e))
        { σ with pc := Function.update σ.pc σ.currentThread k, data := d }
  | finish (hr : σ.ctrl = .run)
      (hc : prog.code σ.currentThread (σ.pc σ.currentThread) = .finish) :
      Step prog σ [.finish σ.currentThread]
        { σ with
          level := .IntOff
          threadToBeDestroyed := some σ.currentThread
          status := Function.update σ.status σ.currentThread .BLOCKED
          resume := Function.update σ.resume σ.currentThread .inFinish
          ctrl := .sleep }
  /-- `Yield` finds no other thread, whether called or at the end of a tick. -/
  | yieldStay {pc : Tid → Pc} (hr : σ.ctrl = .run ∨ σ.ctrl = .tick) (he : σ.readyList = [])
      (hpc : (∃ k, prog.code σ.currentThread (σ.pc σ.currentThread) = .yield k ∧
        σ.ctrl = .run ∧ pc = Function.update σ.pc σ.currentThread k) ∨
        (σ.ctrl = .tick ∧ pc = σ.pc)) (b : Bool) (old : IntStatus) :
      Step prog σ [] (setLevel { σ with pc := pc, level := .IntOff, yieldOnReturn := b } old)
  | yieldSwitch {pc : Tid → Pc} {next : Tid} {rest : List Tid}
      (hr : σ.ctrl = .run ∨ σ.ctrl = .tick) (he : σ.readyList = next :: rest)
      (hpc : (∃ k, prog.code σ.currentThread (σ.pc σ.currentThread) = .yield k ∧
        σ.ctrl = .run ∧ pc = Function.update σ.pc σ.currentThread k) ∨
        (σ.ctrl = .tick ∧ pc = σ.pc)) (b : Bool) (old : IntStatus) :
      Step prog σ [.ready σ.currentThread, .dispatch next]
        (dispatch prog
          { readyToRun { σ with
                pc := pc, level := .IntOff, yieldOnReturn := b, readyList := rest }
              σ.currentThread with
            resume := Function.update σ.resume σ.currentThread (.inYield old) } next)
  /-- `P` finds the value zero and queues the thread. -/
  | block {s : S} {k : Pc} {old : IntStatus} {w : Bool} (hr : σ.ctrl = .testP s k old w)
      (hv : (σ.sem s).value = 0) :
      Step prog σ []
        { σ with
          sem := Function.update σ.sem s
            ⟨(σ.sem s).value, (σ.sem s).queue ++ [σ.currentThread]⟩
          status := Function.update σ.status σ.currentThread .BLOCKED
          resume := Function.update σ.resume σ.currentThread (.inP s k old)
          ctrl := .sleep }
  /-- `P` consumes a unit and returns. -/
  | pass {s : S} {k : Pc} {old : IntStatus} {w : Bool} (hr : σ.ctrl = .testP s k old w)
      (hv : (σ.sem s).value ≠ 0) :
      Step prog σ [.sync (.P σ.currentThread s)]
        (setLevel
          { σ with
            sem := Function.update σ.sem s ⟨decr (σ.sem s).value, (σ.sem s).queue⟩
            pc := Function.update σ.pc σ.currentThread k } old)
  | idle (hr : σ.ctrl = .sleep) (he : σ.readyList = []) : Step prog σ [] { σ with ctrl := .idle }
  | wake {next : Tid} {rest : List Tid} (hr : σ.ctrl = .sleep) (he : σ.readyList = next :: rest) :
      Step prog σ [.dispatch next] (dispatch prog { σ with readyList := rest } next)
  | endIdle (hr : σ.ctrl = .idle) :
      Step prog σ [] { σ with yieldOnReturn := false, ctrl := .sleep }
  | root (hr : σ.ctrl = .switched) (hc : σ.resume σ.currentThread = .threadRoot) :
      Step prog σ [] (setLevel σ .IntOn)
  | backInYield {old : IntStatus} (hr : σ.ctrl = .switched)
      (hc : σ.resume σ.currentThread = .inYield old) :
      Step prog σ (destroyed σ) (setLevel (afterSwitch prog σ) old)
  | backInP {s : S} {k : Pc} {old : IntStatus} (hr : σ.ctrl = .switched)
      (hc : σ.resume σ.currentThread = .inP s k old) :
      Step prog σ (destroyed σ) { afterSwitch prog σ with ctrl := .testP s k old true }
  | endTick (hr : σ.ctrl = .tick) : Step prog σ [] { σ with level := .IntOn, ctrl := .run }
  | handlerV {s : S} (hr : σ.ctrl = .tick ∨ σ.ctrl = .idle) (hd : prog.device s = true) :
      Step prog σ (σ.semaphoreVReady s ++ [.sync (.V none s)])
        { σ.semaphoreV s with data := prog.interrupt σ.data }
  | handler (hr : σ.ctrl = .tick ∨ σ.ctrl = .idle) (b : Bool) :
      Step prog σ [] { σ with data := prog.interrupt σ.data, yieldOnReturn := b }

theorem step_yield {k : Pc} (hr : σ.ctrl = .run)
    (hc : prog.code σ.currentThread (σ.pc σ.currentThread) = .yield k)
    (h : yield prog { σ with pc := Function.update σ.pc σ.currentThread k } σ.level = (τ, es)) :
    Step prog σ es τ := by
  unfold yield at h
  split at h <;> simp only [Prod.mk.injEq] at h <;> obtain ⟨rfl, rfl⟩ := h
  · rename_i he
    exact .yieldStay (.inl hr) he (.inl ⟨k, hc, hr, rfl⟩) σ.yieldOnReturn σ.level
  · rename_i he
    exact .yieldSwitch (.inl hr) he (.inl ⟨k, hc, hr, rfl⟩) σ.yieldOnReturn σ.level

theorem step_endTick (hr : σ.ctrl = .tick) (h : endTick prog σ = (τ, es)) :
    Step prog σ es τ := by
  unfold endTick at h
  split at h
  · unfold yield at h
    split at h <;> simp only [Prod.mk.injEq] at h <;> obtain ⟨rfl, rfl⟩ := h
    · rename_i he
      exact .yieldStay (.inr hr) he (.inr ⟨hr, rfl⟩) false .IntOn
    · rename_i he
      exact .yieldSwitch (.inr hr) he (.inr ⟨hr, rfl⟩) false .IntOn
  · simp only [Prod.mk.injEq] at h
    obtain ⟨rfl, rfl⟩ := h
    exact .endTick hr

theorem step_thread (hr : σ.ctrl = .run) (h : thread prog σ c = some (τ, es)) :
    Step prog σ es τ := by
  simp only [thread] at h
  split at h
  case h_3 => rename_i hc; exact step_yield hr hc (Option.some.inj h)
  case h_6 =>
    rename_i hc
    obtain ⟨⟨k, d, evs⟩, hf, he⟩ := Option.map_eq_some_iff.mp h
    simp only [Prod.mk.injEq] at he
    obtain ⟨rfl, rfl⟩ := he
    exact .act hr hc hf
  all_goals simp only [Option.some.injEq, Prod.mk.injEq, reduceCtorEq] at h
  all_goals obtain ⟨rfl, rfl⟩ := h
  all_goals rename_i hc
  · exact .enterP hr hc
  · exact .V hr hc
  · exact .tick hr hc
  · exact .fork hr hc
  · exact .finish hr hc

theorem step_handler {h : Handler S} (hr : σ.ctrl = .tick ∨ σ.ctrl = .idle)
    (hh : handler prog σ h = some (τ, es)) : Step prog σ es τ := by
  cases h with
  | V s =>
    simp only [handler] at hh
    split at hh
    · simp only [Option.some.injEq, Prod.mk.injEq] at hh
      obtain ⟨rfl, rfl⟩ := hh
      exact .handlerV hr ‹_›
    · cases hh
  | poll =>
    simp only [handler, Option.some.injEq, Prod.mk.injEq] at hh
    obtain ⟨rfl, rfl⟩ := hh
    exact .handler hr σ.yieldOnReturn
  | timer =>
    simp only [handler, Option.some.injEq, Prod.mk.injEq] at hh
    obtain ⟨rfl, rfl⟩ := hh
    exact .handler hr true

/-- Every step the machine takes is one of the listed transitions. -/
theorem step_of_next {a : Act S C} (h : next prog σ a = some (τ, es)) : Step prog σ es τ := by
  cases a with
  | cpu c =>
    simp only [next] at h
    split at h
    case h_1 => rename_i hr; exact step_thread hr h
    case h_6 => rename_i hr; exact step_endTick hr (Option.some.inj h)
    case h_2 =>
      rename_i hr
      simp only [testP, Option.some.injEq] at h
      split at h <;> simp only [Prod.mk.injEq] at h <;> obtain ⟨rfl, rfl⟩ := h
      · exact .block hr ‹_›
      · exact .pass hr ‹_›
    case h_3 =>
      rename_i hr
      simp only [sleep, Option.some.injEq] at h
      split at h <;> simp only [Prod.mk.injEq] at h <;> obtain ⟨rfl, rfl⟩ := h
      · exact .idle hr ‹_›
      · exact .wake hr ‹_›
    case h_4 =>
      rename_i hr
      simp only [Option.some.injEq, Prod.mk.injEq] at h
      obtain ⟨rfl, rfl⟩ := h
      exact .endIdle hr
    case h_5 =>
      rename_i hr
      simp only [resumed] at h
      split at h <;> simp only [Option.some.injEq, Prod.mk.injEq, reduceCtorEq] at h <;>
        obtain ⟨rfl, rfl⟩ := h
      · exact .root hr ‹_›
      · exact .backInYield hr ‹_›
      · exact .backInP hr ‹_›
  | interrupt i =>
    simp only [next] at h
    split at h
    · exact step_handler (.inl ‹_›) h
    · exact step_handler (.inr ‹_›) h
    · cases h

theorem step_of_kernel (h : (kernel prog).step σ es τ) : Step prog σ es τ := by
  obtain ⟨a, ha⟩ := h
  exact step_of_next ha

end Kernel

end Nachos
