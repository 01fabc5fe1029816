import Nachos.Lib.Device
import Nachos.Threads.Refinement
import Nachos.Threads.SemaphoreValue

/-!
# Device interrupts

The thread system with the handlers of the devices. They run where the simulator looks for
interrupts, in `OneTick` and in `Idle`. When a pending interrupt becomes due is left open.
-/
namespace Nachos

open Concurrent

variable {S Pc D Ev C I : Type} [DecidableEq S]

/-- One step: the thread system goes on, or a device interrupts. -/
inductive DeviceAct (S C I : Type)
  | thread (a : Kernel.Act S C)
  | device (i : I)

/-- The running thread has `n` turns. -/
def turns (c : C) (n : ℕ) : List (DeviceAct S C I) := List.replicate n (.thread (.cpu c))

namespace Kernel

/-- The handler of the interrupt `i`, called by `CheckIfDue` with interrupts off. -/
def fire (dev : Handlers S D I) (σ : Kernel S Pc D) (i : I) :
    Option (Kernel S Pc D × List (KEvent S Ev)) :=
  match dev i σ.data with
  | none => none
  | some (d, none) => some ({ σ with data := d }, [])
  | some (d, some s) =>
    some ({ σ.semaphoreV s with data := d }, σ.semaphoreVReady s ++ [.sync (.V none s)])

def deviceNext (prog : Program S Pc D Ev C) (dev : Handlers S D I) (σ : Kernel S Pc D) :
    DeviceAct S C I → Option (Kernel S Pc D × List (KEvent S Ev))
  | .thread a => next prog σ a
  | .device i =>
    match σ.ctrl with
    | .tick | .idle => fire dev σ i
    | _ => none

end Kernel

/-- The runs of `prog` under the thread system, among the devices. -/
def deviceKernel (prog : Program S Pc D Ev C) (dev : Handlers S D I) :
    System (Kernel S Pc D) (KEvent S Ev) :=
  .ofNext (Kernel.boot prog) (Kernel.deviceNext prog dev)

variable {prog : Program S Pc D Ev C} {dev : Handlers S D I} {σ τ : Kernel S Pc D}
  {tr es : List (KEvent S Ev)}

/-- What a device can do. -/
inductive Fired (dev : Handlers S D I) (σ : Kernel S Pc D) :
    List (KEvent S Ev) → Kernel S Pc D → Prop
  | signal {i : I} {d : D} {s : S} (hr : σ.ctrl = .tick ∨ σ.ctrl = .idle)
      (hf : dev i σ.data = some (d, some s)) :
      Fired dev σ (σ.semaphoreVReady s ++ [.sync (.V none s)]) { σ.semaphoreV s with data := d }
  | quiet {i : I} {d : D} (hr : σ.ctrl = .tick ∨ σ.ctrl = .idle)
      (hf : dev i σ.data = some (d, none)) : Fired dev σ [] { σ with data := d }

theorem fired_of_fire {i : I} (hr : σ.ctrl = .tick ∨ σ.ctrl = .idle)
    (h : σ.fire dev i = some (τ, es)) : Fired dev σ es τ := by
  unfold Kernel.fire at h
  split at h <;> cases h
  · exact .quiet hr ‹_›
  · exact .signal hr ‹_›

theorem step_or_fired (h : (deviceKernel prog dev).step σ es τ) :
    Kernel.Step prog σ es τ ∨ Fired dev σ es τ := by
  obtain ⟨a, ha⟩ := h
  cases a with
  | thread a => exact .inl (Kernel.step_of_next ha)
  | device i =>
    right
    simp only [Kernel.deviceNext] at ha
    split at ha
    · exact fired_of_fire (.inl ‹_›) ha
    · exact fired_of_fire (.inr ‹_›) ha
    · cases ha

/-- A program with the same code, whose one handler writes `d`. -/
def handling (prog : Program S Pc D Ev C) (d : D) : Program S Pc D Ev C :=
  { prog with device := fun _ => true, interrupt := fun _ => d }

/-- To the thread system a device is a handler like any other. -/
theorem Fired.step (prog : Program S Pc D Ev C) (h : Fired dev σ es τ) :
    ∃ d, Kernel.Step (handling prog d) σ es τ := by
  cases h with
  | @signal i d s hr hf =>
    have hs : Kernel.Step (handling prog d) σ _ _ := .handlerV (s := s) hr rfl
    exact ⟨d, hs⟩
  | @quiet i d hr hf =>
    have hs : Kernel.Step (handling prog d) σ _ _ := .handler hr σ.yieldOnReturn
    exact ⟨d, hs⟩

theorem placement_deviceRun (h : (deviceKernel prog dev).Run tr σ) : Placement tr σ := by
  refine h.invariant ?_ ?_
  · rintro σ rfl
    exact placement_boot
  · intro tr σ es τ _ hp hs
    rcases step_or_fired hs with hs | hs
    · exact placement_step hs hp
    · obtain ⟨d, hs⟩ := hs.step prog
      exact placement_step hs hp

theorem atCall_deviceRun (h : (deviceKernel prog dev).Run tr σ) : AtCall prog σ := by
  refine h.invariant (I := fun _ σ => AtCall prog σ) ?_ ?_
  · rintro σ rfl
    exact ⟨by simp [Kernel.boot], by simp [Kernel.boot]⟩
  · intro tr σ es τ hr hi hs
    rcases step_or_fired hs with hs | hs
    · exact atCall_step hs (placement_deviceRun hr) hi
    · obtain ⟨d, hs⟩ := hs.step prog
      -- only the code of the program is looked at, and that is the same
      have hi : AtCall (handling prog d) σ := ⟨hi.testing, hi.sleeping⟩
      have ht := atCall_step hs (placement_deviceRun hr) hi
      exact ⟨ht.testing, ht.sleeping⟩

theorem Fired.atomic (prog : Program S Pc D Ev C) (h : Fired dev σ es τ) :
    (deviceAtomic prog dev).step σ.atomically (synced es) τ.atomically := by
  cases h with
  | @signal i d s hr hf =>
    have he : Kernel.atomically { σ.semaphoreV s with data := d } =
        { σ.atomically.setValue s (incr (σ.atomically.value s)) with data := d } := by
      have hv := atomically_semaphoreV σ s
      rw [show σ.atomically.value s = (σ.sem s).value from rfl, ← hv]
      rfl
    rw [synced_V, he]
    exact .signal hf
  | quiet hr hf => exact .quiet hf

/-- Seen from the program, a run under the thread system whose steps meet `G` is an atomic run
whose steps meet `G`. -/
theorem deviceAtomic_run_restrict {G : State S Pc D → List (Event S Ev) → Prop}
    (hG : ∀ a, G a [])
    (h : ((deviceKernel prog dev).restrict fun σ es => G σ.atomically (synced es)).Run tr σ) :
    ((deviceAtomic prog dev).restrict G).Run (synced tr) σ.atomically := by
  refine h.refine ?_ ?_
  · rintro σ rfl
    rfl
  · intro tr σ es τ hr hs
    have hrun := hr.of_restrict
    change System.Steps _ σ.atomically (synced es) τ.atomically
    rcases step_or_fired hs.1 with hs' | hs'
    · obtain ⟨b, hfirst, hhook⟩ :=
        atomic_step hs' (placement_deviceRun hrun) (atCall_deviceRun hrun)
      have hfirst : ((deviceAtomic prog dev).restrict G).Steps σ.atomically (synced es) b := by
        rcases hfirst with ⟨rfl, he⟩ | hfirst
        · rw [he]
          exact .none _
        · exact .one ⟨.thread hfirst, hs.2⟩
      have hhook : ((deviceAtomic prog dev).restrict G).Steps b [] τ.atomically := by
        rcases hhook with hhook | hhook
        · rw [hhook]
          exact .none _
        · exact .one ⟨.thread hhook, hG b⟩
      simpa using hfirst.trans hhook
    · exact .one ⟨hs'.atomic prog, hs.2⟩

theorem deviceAtomic_run (h : (deviceKernel prog dev).Run tr σ) :
    (deviceAtomic prog dev).Run (synced tr) σ.atomically := by
  have hall : ((deviceKernel prog dev).restrict fun _ _ => True).Run tr σ := by
    induction h with
    | start hi => exact .start hi
    | next _ hs ih => exact .next ih ⟨hs, trivial⟩
  exact (deviceAtomic_run_restrict (G := fun _ _ => True) (fun _ => trivial) hall).of_restrict

/-! ## Wakeups among devices -/

/-- As long as the value stays in range, `V` from a handler wakes like any other. -/
theorem semaphoreInv_deviceRun {s : S} (h0 : 0 ≤ prog.value s) (h1 : prog.value s ≤ 2 ^ 31 - 1)
    (hv : ∀ {tr σ}, (deviceKernel prog dev).Run tr σ → (σ.sem s).value < 2 ^ 31 - 1)
    (h : (deviceKernel prog dev).Run tr σ) : SemaphoreInv prog s tr σ := by
  refine h.invariant ?_ ?_
  · rintro σ rfl
    exact ⟨by simp [Kernel.boot, completedP, completedV], h0, h1, by simp [Kernel.boot]⟩
  · intro tr σ es τ hr hi hs
    have ho : NoOverflow s σ es := fun _ _ => hv hr
    rcases step_or_fired hs with hs | hs
    · exact semaphoreInv_step hs (placement_deviceRun hr) ho hi
    · obtain ⟨d, hs⟩ := hs.step prog
      -- only the initial value of the program is looked at, and that is the same
      have hi : SemaphoreInv (handling prog d) s tr σ :=
        ⟨hi.balance, hi.nonneg, hi.bounded, hi.covered⟩
      have ht := semaphoreInv_step hs (placement_deviceRun hr) ho hi
      exact ⟨ht.balance, ht.nonneg, ht.bounded, ht.covered⟩

theorem Resume.eq_inP {s : S} {r : Resume S Pc} (h : r.waits s = true) :
    ∃ k old, r = .inP s k old := by
  cases r with
  | inP s' k old =>
    obtain rfl : s' = s := by simpa [Resume.waits] using h
    exact ⟨k, old, rfl⟩
  | threadRoot | inYield _ | inFinish => simp [Resume.waits] at h

/-- The only thread that ever waits for `s` sleeps only while the value is zero. -/
theorem SemaphoreInv.value_eq_zero {s : S} {t : Tid} (hi : SemaphoreInv prog s tr σ)
    (hp : Placement tr σ) (ha : AtCall prog σ)
    (hw : ∀ u < σ.nextTid, ∀ k, prog.code u (σ.pc u) = .P s k → u = t)
    (ht : t ∈ (σ.sem s).queue) : (σ.sem s).value = 0 := by
  have hready : σ.readyList.countP (fun u => (σ.resume u).waits s) = 0 := by
    refine List.countP_eq_zero.mpr fun u hu hwaits => ?_
    obtain ⟨k, old, hres⟩ := Resume.eq_inP hwaits
    have hcode := ha.sleeping u _ _ _ hres <| by
      by_cases has : σ.ctrl.asleep = true
      · exact .inr (.inl has)
      · left
        rintro rfl
        exact (hp.current_not_listed (by simpa using has)).1 hu
    obtain rfl := hw u (hp.ready u hu).1 _ hcode
    exact hp.not_ready_of_queued ht hu
  have hcurrent : σ.ctrl.asleep = false → ∀ k,
      prog.code σ.currentThread (σ.pc σ.currentThread) ≠ .P s k := by
    intro has k hcode
    have he := hw _ hp.current k hcode
    exact (hp.current_not_listed has).2 s (he ▸ ht)
  have hwoken : woken s σ = 0 := by
    rw [woken, hready, Nat.zero_add]
    split
    · rename_i hctrl
      refine if_neg fun hwaits => ?_
      obtain ⟨k, old, hres⟩ := Resume.eq_inP hwaits
      exact hcurrent (by simp [hctrl]) _ (ha.sleeping _ _ _ _ hres (.inr (.inr hctrl)))
    · rename_i s' k old hctrl
      refine if_neg fun hs => ?_
      subst hs
      exact hcurrent (by simp [hctrl]) k (ha.testing _ _ _ _ hctrl)
    · rfl
  have hcovered := hi.covered (List.ne_nil_of_mem ht)
  rw [hwoken] at hcovered
  exact le_antisymm hcovered hi.nonneg

end Nachos
