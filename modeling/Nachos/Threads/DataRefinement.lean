import Nachos.Threads.Kernel

/-!
# Refinement of the data

Two programs that do the same things, one of them on a more abstract kind of data. If every
action of the one is the action of the other on the abstracted data, so are its runs under the
thread system.
-/
namespace Concurrent

variable {S Pc D E Ev C : Type}

/-- From the data `d`, the instruction does what the other does from `α d`. -/
inductive Instr.RefinesAt (α : D → E) (d : D) : Instr S Pc D Ev C → Instr S Pc E Ev C → Prop
  | P (s : S) (k : Pc) : RefinesAt α d (.P s k) (.P s k)
  | V (s : S) (k : Pc) : RefinesAt α d (.V s k) (.V s k)
  | yield (k : Pc) : RefinesAt α d (.yield k) (.yield k)
  | tick (k : Pc) : RefinesAt α d (.tick k) (.tick k)
  | fork (child : Pc) (k : Tid → Pc) {setup : Tid → D → D} {setup' : Tid → E → E}
      (hs : ∀ u, α (setup u d) = setup' u (α d)) :
      RefinesAt α d (.fork child k setup) (.fork child k setup')
  | act {f : C → D → Option (Pc × D × List Ev)} {g : C → E → Option (Pc × E × List Ev)}
      (hf : ∀ c, (f c d).map (Prod.map id (Prod.map α id)) = g c (α d)) :
      RefinesAt α d (.act f) (.act g)
  | finish : RefinesAt α d .finish .finish
  | stop : RefinesAt α d .stop .stop

structure Program.RefinesAt (prog : Program S Pc D Ev C) (spec : Program S Pc E Ev C)
    (α : D → E) (d : D) : Prop where
  code : ∀ t pc, (prog.code t pc).RefinesAt α d (spec.code t pc)
  device : spec.device = prog.device
  switchOut : ∀ t, α (prog.switchOut t d) = spec.switchOut t (α d)
  switchIn : ∀ t, α (prog.switchIn t d) = spec.switchIn t (α d)
  interrupt : α (prog.interrupt d) = spec.interrupt (α d)

end Concurrent

namespace Nachos

open Concurrent

variable {S Pc D E Ev C : Type} [DecidableEq S] {prog : Program S Pc D Ev C}
  {spec : Program S Pc E Ev C} {α : D → E} {σ : Kernel S Pc D}

namespace Kernel

/-- The kernel with the data abstracted. -/
def mapData (α : D → E) (σ : Kernel S Pc D) : Kernel S Pc E where
  currentThread := σ.currentThread
  readyList := σ.readyList
  threadToBeDestroyed := σ.threadToBeDestroyed
  status := σ.status
  resume := σ.resume
  pc := σ.pc
  nextTid := σ.nextTid
  sem := σ.sem
  level := σ.level
  yieldOnReturn := σ.yieldOnReturn
  ctrl := σ.ctrl
  data := α σ.data

/-- What a step yields, with the data abstracted. -/
def mapNext (α : D → E) (r : Kernel S Pc D × List (KEvent S Ev)) :
    Kernel S Pc E × List (KEvent S Ev) := (r.1.mapData α, r.2)

omit [DecidableEq S] in
theorem mapData_setLevel (σ : Kernel S Pc D) (old : IntStatus) :
    (σ.setLevel old).mapData α = (σ.mapData α).setLevel old := by
  cases old <;> rfl

theorem mapData_semaphoreV (σ : Kernel S Pc D) (s : S) :
    (σ.semaphoreV s).mapData α = (σ.mapData α).semaphoreV s := by
  have hq : ((σ.mapData α).sem s).queue = (σ.sem s).queue := rfl
  unfold semaphoreV
  rw [hq]
  cases (σ.sem s).queue <;> rfl

omit [DecidableEq S] in
theorem mapNext_yield (h : prog.RefinesAt spec α σ.data) (old : IntStatus) :
    mapNext α (σ.yield prog old) = (σ.mapData α).yield spec old := by
  have hq : (σ.mapData α).readyList = σ.readyList := rfl
  unfold yield
  rw [hq]
  cases σ.readyList with
  | nil =>
    simp only [mapNext, mapData_setLevel]
    rfl
  | cons t q =>
    simp only [mapNext, dispatch, mapData, readyToRun, h.switchOut]

theorem mapNext_thread (h : prog.RefinesAt spec α σ.data) (c : C) :
    (σ.thread prog c).map (mapNext α) = (σ.mapData α).thread spec c := by
  have hcode := h.code σ.currentThread (σ.pc σ.currentThread)
  have hc : (σ.mapData α).currentThread = σ.currentThread := rfl
  have hp : (σ.mapData α).pc = σ.pc := rfl
  unfold thread
  simp only [hc, hp]
  generalize hi : prog.code σ.currentThread (σ.pc σ.currentThread) = i at hcode
  generalize hj : spec.code σ.currentThread (σ.pc σ.currentThread) = j at hcode
  cases hcode with
  | V s k =>
    simp only [Option.map_some, mapNext, mapData_setLevel]
    rw [← mapData_semaphoreV]
    rfl
  | yield k =>
    exact congrArg some (mapNext_yield (σ := { σ with
      pc := Function.update σ.pc σ.currentThread k }) h σ.level)
  | act hf =>
    have hd : (σ.mapData α).data = α σ.data := rfl
    dsimp only
    rw [hd, ← hf, Option.map_map, Option.map_map]
    rfl
  | fork child k hs =>
    have hd : (σ.mapData α).data = α σ.data := rfl
    simp only [Option.map_some, mapNext, fork, mapData_setLevel, hd, ← hs]
    rfl
  | _ => rfl

theorem mapNext_handler (h : prog.RefinesAt spec α σ.data) (x : Handler S) :
    (σ.handler prog x).map (mapNext α) = (σ.mapData α).handler spec x := by
  have hd : (σ.mapData α).data = α σ.data := rfl
  cases x with
  | V s =>
    simp only [handler, h.device, hd, ← h.interrupt]
    cases prog.device s with
    | false => rfl
    | true =>
      simp only [if_true, Option.map_some, mapNext]
      rw [← mapData_semaphoreV]
      rfl
  | _ =>
    simp only [handler, hd, ← h.interrupt]
    rfl

/-- A step on the data is the step on the abstracted data. -/
theorem mapNext_next (h : prog.RefinesAt spec α σ.data) (a : Act S C) :
    (σ.next prog a).map (mapNext α) = (σ.mapData α).next spec a := by
  have hctrl : (σ.mapData α).ctrl = σ.ctrl := rfl
  cases a with
  | cpu c =>
    simp only [next, hctrl]
    cases σ.ctrl with
    | run => exact mapNext_thread h c
    | testP s k old w =>
      have hs : (σ.mapData α).sem = σ.sem := rfl
      simp only [testP, hs]
      split
      · rfl
      · simp only [Option.map_some, mapNext, mapData_setLevel]
        rfl
    | sleep =>
      have hq : (σ.mapData α).readyList = σ.readyList := rfl
      simp only [sleep, hq]
      cases σ.readyList with
      | nil => rfl
      | cons t q => simp only [Option.map_some, mapNext, dispatch, mapData, h.switchOut]
    | idle => rfl
    | switched =>
      have hq : (σ.mapData α).resume (σ.mapData α).currentThread = σ.resume σ.currentThread := rfl
      simp only [resumed, hq]
      cases σ.resume σ.currentThread with
      | threadRoot => rfl
      | inYield old =>
        simp only [Option.map_some, mapNext, mapData_setLevel]
        simp only [mapData, afterSwitch, h.switchIn]
        rfl
      | inP s k old =>
        simp only [Option.map_some, mapNext, mapData, afterSwitch, h.switchIn]
        rfl
      | inFinish => rfl
    | tick =>
      have hy : (σ.mapData α).yieldOnReturn = σ.yieldOnReturn := rfl
      simp only [endTick, hy]
      cases σ.yieldOnReturn with
      | false => rfl
      | true =>
        exact congrArg some (mapNext_yield (σ := { σ with
          level := .IntOn, yieldOnReturn := false }) h .IntOn)
  | interrupt x =>
    simp only [next, hctrl]
    cases σ.ctrl with
    | tick | idle => exact mapNext_handler h x
    | _ => rfl

end Kernel

/-- Every run is a run on the abstracted data, with the same events. -/
theorem mapData_run {tr : List (KEvent S Ev)} (h : (kernel prog).Run tr σ)
    (hboot : (Kernel.boot prog).mapData α = Kernel.boot spec)
    (href : ∀ {tr σ}, (kernel prog).Run tr σ → prog.RefinesAt spec α σ.data) :
    (kernel spec).Run tr (σ.mapData α) := by
  induction h with
  | start hi =>
    rw [hi, hboot]
    exact .start rfl
  | next hr hs ih =>
    obtain ⟨a, ha⟩ := hs
    refine .next ih ⟨a, ?_⟩
    rw [← Kernel.mapNext_next (href hr), ha]
    rfl

end Nachos
