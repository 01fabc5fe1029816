import Nachos.Machine.Attached

/-!
# The timer

`timer.cc`, with the handler that `system.cc` gives to it: the timer as a device on the interrupt
queue. It schedules its next interrupt each time one occurs. The tick counters are taken not to
overflow: armed for a time behind the largest `int`, it would be due at once.
-/
namespace Nachos

open Interrupt

/-- `class Timer` of `timer.h`. Its handler is `TimerInterruptHandler`. -/
structure Timer where
  randomize : Bool
  deriving DecidableEq

/-- `TimerTicks` of `stats.h`. -/
def timerTicks : ℕ := 100

/-- `Timer::TimeOfNextInterrupt`, where `Random` returns `random`. -/
def Timer.timeOfNextInterrupt (t : Timer) (random : ℕ) : ℕ :=
  if t.randomize then 1 + random % (timerTicks * 2) else timerTicks

/-- The longest time between two interrupts. -/
def Timer.period (t : Timer) : ℕ := if t.randomize then timerTicks * 2 else timerTicks

theorem Timer.timeOfNextInterrupt_bounds (t : Timer) (random : ℕ) :
    0 < t.timeOfNextInterrupt random ∧ t.timeOfNextInterrupt random ≤ t.period ∧
      (t.randomize = false → t.timeOfNextInterrupt random = t.period) := by
  have hlt : random % (timerTicks * 2) < timerTicks * 2 := Nat.mod_lt _ (by decide)
  unfold timeOfNextInterrupt period
  split
  · next hr =>
    refine ⟨by omega, by omega, fun hf => ?_⟩
    rw [hr] at hf
    cases hf
  · exact ⟨by decide, le_rfl, fun _ => rfl⟩

variable {H : Type}

/-- `TimerInterruptHandler`. `none` where the assertion of `YieldOnReturn` fails. -/
def timerInterruptHandler (h : Hardware H) : Option (Hardware H × List (QEvent H)) :=
  if h.int.status ≠ .IdleMode then Interrupt.next h .yieldOnReturn else some (h, [])

/-- `Timer::TimerExpired`. -/
def Timer.timerExpired (t : Timer) (f : H) (this : BitVec 32) (random : ℕ) (h : Hardware H) :
    Option (Hardware H × List (QEvent H)) :=
  match Interrupt.next h (.schedule f this (t.timeOfNextInterrupt random) .TimerInt) with
  | none => none
  | some (h, es) => (timerInterruptHandler h).map fun r => (r.1, es ++ r.2)

/-- The machine with its timer, once there is one. -/
structure Timed (H : Type) where
  hardware : Hardware H
  timer : Option Timer

inductive TimedEvent (H : Type)
  /-- At the time `now` the timer schedules its next interrupt, in `fromNow` ticks. -/
  | armed (now fromNow : ℕ)
  | hardware (e : QEvent H)
  deriving DecidableEq

inductive TimedCall (H : Type)
  /-- `new Timer`. -/
  | start (doRandom : Bool) (random : ℕ)
  | other (c : Call H) (random : ℕ)

namespace Timed

variable [DecidableEq H] (f : H) (this : BitVec 32)

/-- `f` is `TimerHandler`, which no other code schedules. -/
def next (s : Timed H) : TimedCall H → Option (Timed H × List (TimedEvent H))
  | .start doRandom random =>
    match s.timer with
    | some _ => none
    | none =>
      let t : Timer := ⟨doRandom⟩
      (Interrupt.next s.hardware (.schedule f this (t.timeOfNextInterrupt random) .TimerInt)).map
        fun r => (⟨r.1, some t⟩, .armed s.hardware.int.stats.totalTicks
          (t.timeOfNextInterrupt random) :: r.2.map .hardware)
  | .other c random =>
    if c.foreign f then
      match Interrupt.next s.hardware c with
      | none => none
      | some (h, es) =>
        match occurs f es, s.timer with
        | [], _ => some (⟨h, s.timer⟩, es.map .hardware)
        | _ :: _, none => none
        | _ :: _, some t =>
          (t.timerExpired f this random h).map fun r =>
            (⟨r.1, s.timer⟩, .armed h.int.stats.totalTicks (t.timeOfNextInterrupt random) ::
              (es ++ r.2).map .hardware)
    else none

/-- Any code on the machine, with the timer as one of its devices. -/
def system : System (Timed H) (TimedEvent H) := .ofNext ⟨⟨boot, .kernel⟩, none⟩ (next f this)

end Timed

/-! ## The handler -/

section Handler

variable {h h' : Hardware H} {es : List (QEvent H)}

theorem next_yieldOnReturn {l : Loop} {old : MachineStatus} (hpt : h.point = .handler l old)
    (hin : h.int.inHandler = true) : Interrupt.next h .yieldOnReturn =
      some (⟨{ h.int with yieldOnReturn := true }, h.point⟩, []) := by
  simp [Interrupt.next, hpt, setYieldOnReturn, hin]

/-- In a handler no assertion of `TimerExpired` fails, and the test for `IdleMode` does not either:
the thread that the timer interrupts is to yield. -/
theorem Timer.timerExpired_eq (t : Timer) (f : H) (this : BitVec 32) (random : ℕ) {l : Loop}
    {old : MachineStatus} (hpt : h.point = .handler l old) (hin : h.int.inHandler = true)
    (hst : h.int.status = .SystemMode) :
    ∃ mid : Hardware H,
      Interrupt.next h (.schedule f this (t.timeOfNextInterrupt random) .TimerInt) =
        some (mid, [.scheduled (h.int.toOccur f this (t.timeOfNextInterrupt random) .TimerInt)]) ∧
      Interrupt.next mid .yieldOnReturn =
        some (⟨{ mid.int with yieldOnReturn := true }, mid.point⟩, []) ∧
      t.timerExpired f this random h = some (⟨{ mid.int with yieldOnReturn := true }, mid.point⟩,
        [.scheduled (h.int.toOccur f this (t.timeOfNextInterrupt random) .TimerInt)]) := by
  have hruns : h.point.Runs := by
    rw [hpt]
    trivial
  obtain ⟨σ, hσ, hnext⟩ := next_schedule f this .TimerInt hruns
    (t.timeOfNextInterrupt_bounds random).1
  obtain ⟨-, -, hpoint, -, hstatus, hhandler, -⟩ := next_schedule_cases hnext
  have hyield := next_yieldOnReturn (hpoint.trans hpt) (hhandler.trans hin)
  refine ⟨_, hnext, hyield, ?_⟩
  have hidle : (⟨σ, h.point⟩ : Hardware H).int.status ≠ .IdleMode := by
    rw [hstatus, hst]
    decide
  simp only [timerExpired, hnext, timerInterruptHandler, if_pos hidle, hyield]
  rfl

end Handler

namespace Timed

/-- What the interrupt hardware does in a run. -/
def calls (tr : List (TimedEvent H)) : List (QEvent H) :=
  tr.filterMap fun | .hardware e => some e | _ => none

theorem calls_append (tr es : List (TimedEvent H)) : calls (tr ++ es) = calls tr ++ calls es :=
  List.filterMap_append

theorem calls_map (es : List (QEvent H)) : calls (es.map TimedEvent.hardware) = es := by
  induction es with
  | nil => rfl
  | cons e es ih => exact congrArg (e :: ·) ih

/-- When the timer has last been armed, and for how many ticks. -/
def armed (tr : List (TimedEvent H)) : Option (ℕ × ℕ) :=
  tr.foldl (fun a e => match e with | .armed now fromNow => some (now, fromNow) | _ => a) none

theorem armed_hardware (tr : List (TimedEvent H)) (es : List (QEvent H)) :
    armed (tr ++ es.map .hardware) = armed tr := by
  rw [armed, List.foldl_append, ← armed]
  generalize armed tr = a
  induction es with
  | nil => rfl
  | cons e es ih => exact ih

theorem armed_armed (tr : List (TimedEvent H)) (now fromNow : ℕ) (es : List (QEvent H)) :
    armed (tr ++ .armed now fromNow :: es.map .hardware) = some (now, fromNow) := by
  have hsplit : tr ++ .armed now fromNow :: es.map .hardware =
      (tr ++ [.armed now fromNow]) ++ es.map .hardware := by simp
  rw [hsplit, armed_hardware, armed, List.foldl_append]
  rfl

theorem not_mem_hardware {now fromNow : ℕ} {es₁ es₂ : List (TimedEvent H)}
    {hes : List (QEvent H)} : hes.map .hardware ≠ es₁ ++ .armed now fromNow :: es₂ := by
  intro h
  have hmem : TimedEvent.armed now fromNow ∈ hes.map TimedEvent.hardware := by
    rw [h]
    exact List.mem_append_right _ List.mem_cons_self
  obtain ⟨e, -, he⟩ := List.mem_map.mp hmem
  cases he

theorem cons_eq_split {x : TimedEvent H} {now fromNow : ℕ} {es₁ es₂ : List (TimedEvent H)}
    {hes : List (QEvent H)} (h : x :: hes.map .hardware = es₁ ++ .armed now fromNow :: es₂) :
    es₁ = [] ∧ x = .armed now fromNow := by
  cases es₁ with
  | nil =>
    cases h
    exact ⟨rfl, rfl⟩
  | cons y es₁ => exact absurd (List.cons.inj h).2 not_mem_hardware

variable [DecidableEq H] {f : H} {this : BitVec 32} {tr es : List (TimedEvent H)}
  {s s' : Timed H}

theorem next_start {doRandom : Bool} {random : ℕ}
    (hn : next f this s (.start doRandom random) = some (s', es)) :
    s.timer = none ∧ ∃ h hes, Interrupt.next s.hardware
        (.schedule f this ((⟨doRandom⟩ : Timer).timeOfNextInterrupt random) .TimerInt) =
          some (h, hes) ∧
      s' = ⟨h, some ⟨doRandom⟩⟩ ∧ es = .armed s.hardware.int.stats.totalTicks
        ((⟨doRandom⟩ : Timer).timeOfNextInterrupt random) :: hes.map .hardware := by
  simp only [next] at hn
  split at hn
  · cases hn
  · next htimer =>
    obtain ⟨⟨h, hes⟩, hnext, heq⟩ := Option.map_eq_some_iff.mp hn
    cases heq
    exact ⟨htimer, h, hes, hnext, rfl, rfl⟩

theorem next_other {c : Call H} {random : ℕ}
    (hn : next f this s (.other c random) = some (s', es)) :
    c.foreign f = true ∧ ∃ h hes, Interrupt.next s.hardware c = some (h, hes) ∧
      ((occurs f hes = [] ∧ s' = ⟨h, s.timer⟩ ∧ es = hes.map .hardware) ∨
        ∃ t h' hes', occurs f hes ≠ [] ∧ s.timer = some t ∧
          t.timerExpired f this random h = some (h', hes') ∧ s' = ⟨h', s.timer⟩ ∧
          es = .armed h.int.stats.totalTicks (t.timeOfNextInterrupt random) ::
            (hes ++ hes').map .hardware) := by
  simp only [next] at hn
  split at hn
  case isFalse => cases hn
  next hf =>
  split at hn
  · cases hn
  · next h hes hnext =>
    refine ⟨hf, h, hes, hnext, ?_⟩
    split at hn
    · next hnone =>
      cases hn
      exact .inl ⟨hnone, rfl, rfl⟩
    · cases hn
    · next p ps t hsome htimer =>
      obtain ⟨⟨h', hes'⟩, hexp, heq⟩ := Option.map_eq_some_iff.mp hn
      cases heq
      exact .inr ⟨t, h', hes', by rw [hsome]; exact List.cons_ne_nil _ _, htimer, hexp, rfl, rfl⟩

/-- The invariant of the timer. From its start on one interrupt of it is pending. -/
structure Sound (f : H) (tr : List (TimedEvent H)) (s : Timed H) : Prop where
  hardware : Interrupt.Sound (calls tr) s.hardware
  timer : s.timer.isSome = (armed tr).isSome
  pending : ∃ o : Option (PendingInterrupt H), outstanding f s.hardware.int = o.toList ∧
    o.map (·.when) = (armed tr).map (fun a => a.1 + a.2) ∧ ∀ p ∈ o, p.type = .TimerInt
  period : ∀ t ∈ s.timer, ∀ a ∈ armed tr,
    0 < a.2 ∧ a.2 ≤ t.period ∧ (t.randomize = false → a.2 = t.period)

theorem sound_boot : Sound f [] (⟨⟨boot, .kernel⟩, none⟩ : Timed H) where
  hardware := Interrupt.sound_boot
  timer := rfl
  pending := ⟨none, rfl, rfl, by simp⟩
  period := by simp

/-- `TimerExpired`, called when the timer's interrupt occurs. -/
theorem Sound.expired (this : BitVec 32) {c : Call H} (random : ℕ) (t : Timer) {h : Hardware H}
    {hes : List (QEvent H)} (hs : Sound f tr s) (hf : c.foreign f = true)
    (hnext : Interrupt.next s.hardware c = some (h, hes)) (hsome : occurs f hes ≠ []) :
    ∃ p h', armed tr = some p ∧ p.1 + p.2 ≤ h.int.stats.totalTicks ∧
      t.timerExpired f this random h = some (h',
        [.scheduled (h.int.toOccur f this (t.timeOfNextInterrupt random) .TimerInt)]) ∧
      Interrupt.Sound (calls tr ++ (hes ++
        [.scheduled (h.int.toOccur f this (t.timeOfNextInterrupt random) .TimerInt)])) h' ∧
      outstanding f h'.int = [h.int.toOccur f this (t.timeOfNextInterrupt random) .TimerInt] ∧
      h'.int.yieldOnReturn = true ∧ h'.point = h.point ∧
      ∃ q, hes = [.ran q h.int.stats.totalTicks] := by
  obtain ⟨o, hout, ho, -⟩ := hs.pending
  obtain ⟨p, rfl, hgone, hp⟩ :=
    (hs.hardware.outstanding_foreign hout hf hnext).resolve_left fun h => hsome h.2
  obtain ⟨hran, ⟨l, old, hpt⟩, hst, hin⟩ := occurs_eq_singleton hnext hp
  obtain ⟨mid, hschedule, hyield, hexp⟩ := t.timerExpired_eq f this random hpt hin hst
  have hsound := (Interrupt.sound_step hs.hardware hnext).1
  have hmid := (Interrupt.sound_step hsound hschedule).1
  have hpending := hsound.outstanding_schedule hgone hschedule
  have hlast := (Interrupt.sound_step hmid hyield).1
  obtain ⟨-, -, hpoint, -⟩ := next_schedule_cases hschedule
  obtain ⟨a, ha, hsum⟩ := Option.map_eq_some_iff.mp ho.symm
  have hdue : a.1 + a.2 ≤ h.int.stats.totalTicks := hsum.le.trans (hs.hardware.when_le hnext hp)
  refine ⟨a, _, ha, hdue, hexp, ?_, hpending, rfl, hpoint, p, hran⟩
  simpa using hlast

theorem Sound.start {doRandom : Bool} {random : ℕ} (hs : Sound f tr s)
    (hn : next f this s (.start doRandom random) = some (s', es)) : Sound f (tr ++ es) s' := by
  obtain ⟨htimer, h, hes, hnext, rfl, rfl⟩ := next_start hn
  have harmed : armed tr = none := by
    have := hs.timer
    rw [htimer] at this
    exact Option.not_isSome_iff_eq_none.mp (by simp [← this])
  obtain ⟨o, hout, ho, -⟩ := hs.pending
  rw [harmed, Option.map_none, Option.map_eq_none_iff] at ho
  subst ho
  have hpending := hs.hardware.outstanding_schedule hout hnext
  refine ⟨?_, ?_, ?_, ?_⟩
  · rw [calls_append]
    change Interrupt.Sound (calls tr ++ calls (hes.map .hardware)) h
    rw [calls_map]
    exact (Interrupt.sound_step hs.hardware hnext).1
  · rw [armed_armed]
    rfl
  · rw [armed_armed]
    refine ⟨some _, hpending, rfl, fun p hp => ?_⟩
    cases hp
    rfl
  · rw [armed_armed]
    intro t ht a ha
    cases ht
    cases ha
    exact Timer.timeOfNextInterrupt_bounds _ random

theorem Sound.other {c : Call H} {random : ℕ} (hs : Sound f tr s)
    (hn : next f this s (.other c random) = some (s', es)) : Sound f (tr ++ es) s' := by
  obtain ⟨hf, h, hes, hnext, ⟨hnone, rfl, rfl⟩ | ⟨t, h', hes', hsome, ht, hexp, rfl, rfl⟩⟩ :=
    next_other hn
  · obtain ⟨o, hout, ho, htype⟩ := hs.pending
    have hstill : outstanding f h.int = o.toList := by
      rcases hs.hardware.outstanding_foreign hout hf hnext with ⟨hstill, -⟩ | ⟨p, -, -, hp⟩
      · exact hstill
      · rw [hnone] at hp
        cases hp
    refine ⟨?_, ?_, ?_, ?_⟩
    · rw [calls_append, calls_map]
      exact (Interrupt.sound_step hs.hardware hnext).1
    · rw [armed_hardware]
      exact hs.timer
    · rw [armed_hardware]
      exact ⟨o, hstill, ho, htype⟩
    · rw [armed_hardware]
      exact hs.period
  · obtain ⟨a, k, ha, -, hexp', hsound, hpending, -⟩ :=
      hs.expired this random t hf hnext hsome
    rw [hexp'] at hexp
    cases hexp
    refine ⟨?_, ?_, ?_, ?_⟩
    · rw [calls_append]
      change Interrupt.Sound (calls tr ++ calls ((hes ++ _).map .hardware)) h'
      rw [calls_map]
      exact hsound
    · rw [armed_armed, ht]
      rfl
    · rw [armed_armed]
      refine ⟨some _, hpending, rfl, fun p hp => ?_⟩
      cases hp
      rfl
    · rw [armed_armed]
      intro t' ht' b hb
      rw [ht] at ht'
      cases ht'
      cases hb
      exact t.timeOfNextInterrupt_bounds random

theorem sound_run (hr : (system f this).Run tr s) : Sound f tr s := by
  refine hr.invariant (I := Sound f) (fun s hs => ?_) fun _ hs hst => ?_
  · cases hs
    exact sound_boot
  · obtain ⟨a, hn⟩ := hst
    cases a with
    | start doRandom random => exact hs.start hn
    | other c random => exact hs.other hn

/-- What the scheduler may rely on, in every state. -/
structure Steady (f : H) (this : BitVec 32) (tr : List (TimedEvent H)) (s : Timed H) : Prop where
  /-- The timer does not expire early. -/
  onTime : ∀ tr₁ tr₂ now fromNow, tr = tr₁ ++ .armed now fromNow :: tr₂ →
    ∀ a ∈ armed tr₁, a.1 + a.2 ≤ now
  /-- One interrupt of it is pending. -/
  one : ∀ t ∈ s.timer, ∃ p a, outstanding f s.hardware.int = [p] ∧ armed tr = some a ∧
    p.when = a.1 + a.2 ∧ 0 < a.2 ∧ a.2 ≤ t.period ∧ (t.randomize = false → a.2 = t.period)
  /-- It does not get in the way. -/
  accepted : ∀ c random, c.foreign f = true → (Interrupt.next s.hardware c).isSome →
    (next f this s (.other c random)).isSome
  /-- When it expires the thread is to yield. -/
  yields : ∀ c random s' es now fromNow, next f this s (.other c random) = some (s', es) →
    .armed now fromNow ∈ es → s'.hardware.int.yieldOnReturn = true
  /-- A thread does not go on without having yielded in the last period. -/
  slice : ∀ c random s' es, next f this s (.other c random) = some (s', es) →
    .hardware .drained ∈ es → ∀ t ∈ s.timer, ∀ a ∈ armed tr,
      s'.hardware.int.stats.totalTicks < a.1 + t.period
  /-- It does not keep an idle machine alive. -/
  halts : ∀ random s' es, s.timer.isSome → next f this s (.other .idle random) = some (s', es) →
    (s'.hardware.point = .halted ↔ items s.hardware.int = outstanding f s.hardware.int)

theorem Sound.one (hs : Sound f tr s) {t : Timer} (ht : s.timer = some t) :
    ∃ p a, outstanding f s.hardware.int = [p] ∧ p.type = .TimerInt ∧ armed tr = some a ∧
      p.when = a.1 + a.2 ∧ 0 < a.2 ∧ a.2 ≤ t.period ∧ (t.randomize = false → a.2 = t.period) := by
  have hsome := hs.timer
  rw [ht] at hsome
  obtain ⟨a, ha⟩ := Option.isSome_iff_exists.mp hsome.symm
  obtain ⟨o, hout, ho, htype⟩ := hs.pending
  rw [ha] at ho
  obtain ⟨p, rfl, hwhen⟩ := Option.map_eq_some_iff.mp ho
  exact ⟨p, a, hout, htype p rfl, ha, hwhen, hs.period t ht a ha⟩

theorem Sound.accepted (hs : Sound f tr s) {c : Call H} (random : ℕ) (hf : c.foreign f = true)
    (hn : (Interrupt.next s.hardware c).isSome) :
    (next f this s (.other c random)).isSome := by
  obtain ⟨⟨h, hes⟩, hnext⟩ := Option.isSome_iff_exists.mp hn
  simp only [next, if_pos hf, hnext]
  split
  · rfl
  · next hsome htimer =>
    obtain ⟨a, -, ha, -⟩ := hs.expired this random ⟨false⟩ hf hnext
      (by rw [hsome]; exact List.cons_ne_nil _ _)
    have hnone := hs.timer
    rw [htimer, ha] at hnone
    cases hnone
  · next hsome htimer =>
    obtain ⟨_, _, -, -, hexp, -⟩ := hs.expired this random _ hf hnext
      (by rw [hsome]; exact List.cons_ne_nil _ _)
    rw [hexp]
    rfl

theorem Sound.slice {c : Call H} {random : ℕ} (hs : Sound f tr s)
    (hn : next f this s (.other c random) = some (s', es)) (hd : .hardware .drained ∈ es)
    {t : Timer} (ht : s.timer = some t) {a : ℕ × ℕ} (ha : armed tr = some a) :
    s'.hardware.int.stats.totalTicks < a.1 + t.period := by
  have hs' := hs.other hn
  obtain ⟨hf, h, hes, hnext, ⟨hnone, rfl, rfl⟩ | ⟨t', h', hes', hsome, -, hexp, -, rfl⟩⟩ :=
    next_other hn
  · obtain ⟨p, a', hout, -, ha', hwhen, -, hle, -⟩ := hs'.one ht
    rw [armed_hardware, ha] at ha'
    cases ha'
    have hmem : p ∈ outstanding f h.int := by
      rw [hout]
      exact List.mem_singleton_self p
    obtain ⟨e, he, rfl⟩ := List.mem_map.mp (List.mem_of_mem_filter hmem)
    have hdrained : QEvent.drained ∈ hes := by simpa using hd
    have hlt := (Interrupt.sound_step hs.hardware hnext).2.drained hdrained e he
    rw [hwhen] at hlt
    exact hlt.trans_le (Nat.add_le_add_left hle _)
  · -- a handler has been called, so that the loop goes on
    obtain ⟨_, _, -, -, hexp', -, -, -, -, q, rfl⟩ := hs.expired this random t' hf hnext
      hsome
    rw [hexp] at hexp'
    cases hexp'
    simp at hd

theorem Sound.onTime {c : TimedCall H} {es₁ es₂ : List (TimedEvent H)} {now fromNow : ℕ}
    (hs : Sound f tr s) (hn : next f this s c = some (s', es₁ ++ .armed now fromNow :: es₂)) :
    es₁ = [] ∧ ∀ a ∈ armed tr, a.1 + a.2 ≤ now := by
  cases c with
  | start doRandom random =>
    obtain ⟨htimer, h, hes, -, -, hsplit⟩ := next_start hn
    refine ⟨(cons_eq_split hsplit.symm).1, fun a ha => ?_⟩
    have hnone := hs.timer
    rw [htimer, Option.mem_def.mp ha] at hnone
    cases hnone
  | other c random =>
    obtain ⟨hf, h, hes, hnext, ⟨-, -, hsplit⟩ | ⟨t, h', hes', hsome, -, -, -, hsplit⟩⟩ :=
      next_other hn
    · exact absurd hsplit.symm not_mem_hardware
    · obtain ⟨hnil, hx⟩ := cons_eq_split hsplit.symm
      cases hx
      refine ⟨hnil, fun a ha => ?_⟩
      obtain ⟨a', _, ha', hle, -⟩ := hs.expired this random t hf hnext hsome
      rw [ha'] at ha
      cases ha
      exact hle

theorem Sound.yields {c : Call H} {random now fromNow : ℕ} (hs : Sound f tr s)
    (hn : next f this s (.other c random) = some (s', es)) (hmem : .armed now fromNow ∈ es) :
    s'.hardware.int.yieldOnReturn = true := by
  obtain ⟨hf, h, hes, hnext, ⟨-, -, rfl⟩ | ⟨t, h', hes', hsome, -, hexp, rfl, -⟩⟩ :=
    next_other hn
  · obtain ⟨_, -, he⟩ := List.mem_map.mp hmem
    cases he
  · obtain ⟨_, _, -, -, hexp', -, -, hyield, -⟩ := hs.expired this random t hf hnext hsome
    rw [hexp] at hexp'
    cases hexp'
    exact hyield

/-- Nothing but the timer's interrupt is pending, as `CheckIfDue` tests it. -/
theorem Sound.alone_iff (hs : Sound f tr s) {t : Timer} (ht : s.timer = some t) :
    items s.hardware.int = outstanding f s.hardware.int ↔ s.hardware.int.pending = [] ∨
      ∃ e, s.hardware.int.pending = [e] ∧ e.item.type = .TimerInt := by
  obtain ⟨p, -, hout, htype, -⟩ := hs.one ht
  constructor
  · intro hitems
    rw [hout] at hitems
    obtain ⟨e, hp, rfl⟩ := List.map_eq_singleton_iff.mp hitems
    exact .inr ⟨e, hp, htype⟩
  · rintro (hnil | ⟨e, hp, -⟩)
    · rw [outstanding, items, hnil] at hout
      cases hout
    · have hitems : items s.hardware.int = [e.item] := by
        rw [items, hp]
        rfl
      have hmem : p ∈ outstanding f s.hardware.int := by
        rw [hout]
        exact List.mem_singleton_self p
      have := List.mem_of_mem_filter hmem
      rw [hitems, List.mem_singleton] at this
      rw [hitems, hout, this]

theorem Sound.halts {random : ℕ} (hs : Sound f tr s) {t : Timer} (ht : s.timer = some t)
    (hn : next f this s (.other .idle random) = some (s', es)) :
    s'.hardware.point = .halted ↔ items s.hardware.int = outstanding f s.hardware.int := by
  rw [hs.alone_iff ht]
  obtain ⟨hf, h, hes, hnext, ⟨-, rfl, -⟩ | ⟨t', h', hes', hsome, -, hexp, rfl, -⟩⟩ :=
    next_other hn
  · exact next_idle hnext
  · obtain ⟨_, _, -, -, hexp', -, -, -, hpoint, -⟩ := hs.expired this random t' hf hnext
      hsome
    rw [hexp] at hexp'
    cases hexp'
    rw [← next_idle hnext, hpoint]

/-- A machine that has started its timer, under any sequence of calls, as long as the tick counters
do not overflow. -/
theorem steady_run (hr : (system f this).Run tr s) : Steady f this tr s := by
  have hs := sound_run hr
  refine ⟨fun tr₁ tr₂ now fromNow ht => ?_, fun t ht => ?_, fun c random hf hn => ?_,
    fun c random s' es now fromNow hn hmem => ?_, fun c random s' es hn hd t ht a ha => ?_,
    fun random s' es htimer hn => ?_⟩
  · subst ht
    obtain ⟨tr, t, es₁, es₂, u, hreach, ⟨c, hn⟩, rfl⟩ := hr.emitted
    obtain ⟨rfl, hle⟩ := (sound_run hreach).onTime hn
    rwa [List.append_nil]
  · obtain ⟨p, a, hout, -, hrest⟩ := hs.one ht
    exact ⟨p, a, hout, hrest⟩
  · exact hs.accepted random hf hn
  · exact hs.yields hn hmem
  · exact hs.slice hn hd ht ha
  · obtain ⟨t, ht⟩ := Option.isSome_iff_exists.mp htimer
    exact hs.halts ht hn

/-- When the timer has been armed. -/
def arms (tr : List (TimedEvent H)) : List (ℕ × ℕ) :=
  tr.filterMap fun | .armed now fromNow => some (now, fromNow) | _ => none

/-- A random timer and another device. The machine idles until both have occurred, and then for good:
nothing but the timer is left. -/
theorem steady_run_halts : ∃ (tr : List (TimedEvent Bool)) (s : Timed Bool),
    (system true 0).Run tr s ∧ Steady true 0 tr s ∧ arms tr = [(0, 6), (6, 100)] ∧
      s.hardware.point = .halted := by
  obtain ⟨tr, s, hr, _, hp⟩ := System.exists_run_of_exec
    (⟨⟨boot, .kernel⟩, none⟩ : Timed Bool) (next true 0)
    [.start true 205, .other (.schedule false 0 20 .DiskInt) 0, .other .idle 99,
      .other .handlerReturn 0, .other .checkIfDue 0, .other (.changeLevel .IntOff) 0,
      .other .idle 0, .other .handlerReturn 0, .other .checkIfDue 0, .other .idle 0]
    (fun r => decide (arms r.2 = [(0, 6), (6, 100)] ∧ r.1.hardware.point = .halted))
    (by decide +kernel)
  have hp := of_decide_eq_true hp
  exact ⟨tr, s, hr, steady_run hr, hp.1, hp.2⟩

end Timed

end Nachos
