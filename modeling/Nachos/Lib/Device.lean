import Nachos.Lib.Lock

/-!
# Devices that interrupt

Between two steps of the threads a device may interrupt. Its handler changes the shared data
and signals at most one semaphore.
-/
namespace Concurrent

variable {S Pc D Ev C I : Type}

/-- The handlers of all interrupts: the data afterwards and the semaphore signalled, or `none`
where no such interrupt is pending. -/
abbrev Handlers (S D I : Type) := I → D → Option (D × Option S)

/-- A new thread is where every thread starts until it is forked. -/
def Fresh (prog : Program S Pc D Ev C) (a : State S Pc D) : Prop :=
  ∀ t, a.nextTid ≤ t → a.pc t = prog.start

variable [DecidableEq S]

/-- One atomic step of the program, or of a handler. -/
inductive DeviceStep (prog : Program S Pc D Ev C) (dev : Handlers S D I) (a : State S Pc D) :
    List (Event S Ev) → State S Pc D → Prop
  | thread {es : List (Event S Ev)} {b : State S Pc D} (hs : Step prog a es b) :
      DeviceStep prog dev a es b
  | signal {i : I} {d : D} {s : S} (hf : dev i a.data = some (d, some s)) :
      DeviceStep prog dev a [.V none s] { a.setValue s (incr (a.value s)) with data := d }
  | quiet {i : I} {d : D} (hf : dev i a.data = some (d, none)) :
      DeviceStep prog dev a [] { a with data := d }

/-- The program among the devices. -/
def deviceAtomic (prog : Program S Pc D Ev C) (dev : Handlers S D I) :
    System (State S Pc D) (Event S Ev) where
  init a := a = prog.initial
  step := DeviceStep prog dev

variable {prog : Program S Pc D Ev C} {dev : Handlers S D I} {s : S} {inside : Pc → Bool}
  {a b : State S Pc D} {tr es : List (Event S Ev)}

theorem fresh_step (hs : Step prog a es b) (h : Fresh prog a) : Fresh prog b := by
  intro t hn
  cases hs with
  | P ht _ _ | V ht _ | yield ht _ | act ht _ _ =>
    simpa [(ht.trans_le hn).ne'] using h t hn
  | fork ht _ =>
    have hn : a.nextTid < t := hn
    simpa [(ht.trans hn).ne', hn.ne'] using h t hn.le
  | handler _ | hook _ => exact h t hn

theorem fresh_deviceRun (h : (deviceAtomic prog dev).Run tr a) : Fresh prog a := by
  refine h.invariant (I := fun _ a => Fresh prog a) ?_ ?_
  · rintro a rfl t _
    rfl
  · intro tr a es b _ h hs
    cases hs with
    | thread hs => exact fresh_step hs h
    | signal _ | quiet _ => exact h

/-- No handler touches the lock, so it excludes among the devices too. -/
theorem exclusive_deviceStep (hl : prog.Lock s inside)
    (hd : ∀ i d d', dev i d ≠ some (d', some s)) (hs : DeviceStep prog dev a es b)
    (h : Exclusive s inside tr a) : Exclusive s inside (tr ++ es) b := by
  cases hs with
  | thread hs => exact exclusive_step hl hs h
  | @signal i d s' hf =>
    have hne : s ≠ s' := by
      rintro rfl
      exact hd _ _ _ hf
    exact h.frame (by simp [hne]) (fun _ => Iff.rfl) (by simp [acquired]) (by simp [released])
  | quiet _ => exact h.frame rfl (fun _ => Iff.rfl) (by simp [acquired]) (by simp [released])

theorem exclusive_deviceRun (hl : prog.Lock s inside)
    (hd : ∀ i d d', dev i d ≠ some (d', some s)) (h : (deviceAtomic prog dev).Run tr a) :
    Exclusive s inside tr a := by
  refine h.invariant ?_ ?_
  · rintro a rfl
    exact exclusive_run hl (.start rfl)
  · intro tr a es b _ hi hs
    exact exclusive_deviceStep hl hd hs hi

end Concurrent
