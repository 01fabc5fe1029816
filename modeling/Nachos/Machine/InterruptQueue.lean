import Nachos.Machine.Interrupt

/-!
# The order of interrupts

The kernel calls `Schedule`, `OneTick` and `Idle` in any order, and the handlers these call
schedule further interrupts. Time never runs backwards, and every interrupt is handled once,
in the order of the due times and not before its own.
-/
namespace Nachos.Interrupt

variable {H : Type}

/-- The loop that has called `CheckIfDue`. -/
inductive Loop
  | oneTick
  | idle
  deriving DecidableEq

/-- What the processor is doing, seen from the interrupt hardware. -/
inductive Point
  /-- Code of the kernel, or of a user program. -/
  | kernel
  /-- About to call `CheckIfDue(FALSE)`. -/
  | check (l : Loop)
  /-- In a handler; `CheckIfDue` has saved the status `old`. -/
  | handler (l : Loop) (old : MachineStatus)
  /-- `Halt` does not return. -/
  | halted
  deriving DecidableEq

structure Hardware (H : Type) where
  int : Interrupt H
  point : Point

inductive QEvent (H : Type)
  | scheduled (p : PendingInterrupt H)
  /-- The handler of `p` is called, the clock being at `now`. -/
  | ran (p : PendingInterrupt H) (now : ℕ)
  /-- The loop of `OneTick` ends. -/
  | drained
  deriving DecidableEq

inductive Call (H : Type)
  | schedule (handler : H) (arg : BitVec 32) (fromNow : ℕ) (type : IntType)
  | setStatus (st : MachineStatus)
  | changeLevel (now : IntStatus)
  | oneTick
  | idle
  /-- The loop goes on. -/
  | checkIfDue
  | yieldOnReturn
  /-- The handler returns. -/
  | handlerReturn

/-- The end of `Interrupt::OneTick`. Where a handler has asked for it the thread yields now, and
what happens from here on is other code, which in the end restores the status. -/
def endOneTick (σ : Interrupt H) : Interrupt H :=
  if σ.yieldOnReturn then
    { σ.changeLevel .IntOn with yieldOnReturn := false, status := .SystemMode }
  else σ.changeLevel .IntOn

/-- The end of `Interrupt::Idle` when an interrupt has occurred. -/
def endIdle (σ : Interrupt H) : Interrupt H :=
  { σ with yieldOnReturn := false, status := .SystemMode }

def next (h : Hardware H) (c : Call H) : Option (Hardware H × List (QEvent H)) :=
  match h.point, c with
  | .kernel, .schedule handler arg fromNow type
  | .handler _ _, .schedule handler arg fromNow type =>
    (h.int.schedule handler arg fromNow type).map fun σ =>
      (⟨σ, h.point⟩, [.scheduled (h.int.toOccur handler arg fromNow type)])
  -- `IdleMode` is set by `Idle` only
  | .kernel, .setStatus st =>
    if st = .IdleMode then none else some (⟨{ h.int with status := st }, .kernel⟩, [])
  | .kernel, .changeLevel now => some (⟨h.int.changeLevel now, .kernel⟩, [])
  | .kernel, .oneTick => some (⟨h.int.advanceTime.changeLevel .IntOff, .check .oneTick⟩, [])
  | .kernel, .idle =>
    match checkIfDue { h.int with status := .IdleMode } true with
    | some (σ, some p) => some (⟨σ, .handler .idle .IdleMode⟩, [.ran p σ.stats.totalTicks])
    | some (σ, none) => some (⟨σ, .halted⟩, [])
    | none => none
  | .check l, .checkIfDue =>
    match checkIfDue h.int false, l with
    | some (σ, some p), _ => some (⟨σ, .handler l h.int.status⟩, [.ran p σ.stats.totalTicks])
    | some (σ, none), .oneTick => some (⟨endOneTick σ, .kernel⟩, [.drained])
    | some (σ, none), .idle => some (⟨endIdle σ, .kernel⟩, [])
    | none, _ => none
  | .handler _ _, .yieldOnReturn => h.int.setYieldOnReturn.map fun σ => (⟨σ, h.point⟩, [])
  | .handler l old, .handlerReturn => some (⟨h.int.handlerReturn old, .check l⟩, [])
  | _, _ => none

/-- The interrupt hardware under any sequence of calls. -/
def hardware (H : Type) : System (Hardware H) (QEvent H) := .ofNext ⟨boot, .kernel⟩ next

/-- The interrupts scheduled so far, and those whose handler has been called, in order. -/
def made (tr : List (QEvent H)) : List (PendingInterrupt H) :=
  tr.filterMap fun | .scheduled p => some p | _ => none

def ran (tr : List (QEvent H)) : List (PendingInterrupt H) :=
  tr.filterMap fun | .ran p _ => some p | _ => none

def items (σ : Interrupt H) : List (PendingInterrupt H) := σ.pending.map (·.item)

/-! ## The queue -/

/-- The invariant of the queue, when `made` have been scheduled and `ran` have occurred. -/
structure Queue (made ran : List (PendingInterrupt H)) (σ : Interrupt H) : Prop where
  sorted : ListElement.Sorted σ.pending
  key : ∀ e ∈ σ.pending, e.key = e.item.when
  perm : (items σ ++ ran).Perm made
  fresh : ∀ p ∈ made, p.id < σ.scheduled
  nodup : made.Nodup
  order : ran.Pairwise (·.when ≤ ·.when)
  past : ∀ p ∈ ran, p.when ≤ σ.stats.totalTicks
  ahead : ∀ p ∈ ran, ∀ e ∈ σ.pending, p.when ≤ e.key
  ticks : σ.stats.totalTicks = σ.stats.idleTicks + σ.stats.systemTicks + σ.stats.userTicks

variable {m r : List (PendingInterrupt H)} {σ τ : Interrupt H} {p : PendingInterrupt H}

/-- Time may pass, and the queue may be permuted as long as it stays sorted. -/
theorem Queue.permute (h : Queue m r σ) (hp : τ.pending.Perm σ.pending)
    (hsort : ListElement.Sorted τ.pending) (hn : τ.scheduled = σ.scheduled)
    (hle : σ.stats.totalTicks ≤ τ.stats.totalTicks)
    (hs : τ.stats.totalTicks = τ.stats.idleTicks + τ.stats.systemTicks + τ.stats.userTicks) :
    Queue m r τ where
  sorted := hsort
  key e he := h.key e (hp.mem_iff.mp he)
  perm := ((hp.map _).append_right r).trans h.perm
  fresh := by
    rw [hn]
    exact h.fresh
  nodup := h.nodup
  order := h.order
  past p hpr := (h.past p hpr).trans hle
  ahead p hpr e he := h.ahead p hpr e (hp.mem_iff.mp he)
  ticks := hs

/-- The other fields do not matter. -/
theorem Queue.congr (h : Queue m r σ) (hp : τ.pending = σ.pending) (hs : τ.stats = σ.stats)
    (hn : τ.scheduled = σ.scheduled) : Queue m r τ := by
  apply h.permute
  · rw [hp]
  · rw [hp]
    exact h.sorted
  · exact hn
  · rw [hs]
  · rw [hs]
    exact h.ticks

theorem queue_boot : Queue [] [] (boot : Interrupt H) where
  sorted := List.Pairwise.nil
  key e he := by cases he
  perm := .refl _
  fresh p hp := by cases hp
  nodup := List.nodup_nil
  order := List.Pairwise.nil
  past p hp := by cases hp
  ahead p hp := by cases hp
  ticks := rfl

theorem le_advanceTime (σ : Interrupt H) : σ.stats.totalTicks ≤ σ.advanceTime.stats.totalTicks := by
  unfold advanceTime
  split
  · exact Nat.le_add_right _ _
  · exact Nat.le_add_right _ _

theorem Queue.advanceTime (h : Queue m r σ) : Queue m r σ.advanceTime := by
  have ht := h.ticks
  unfold Interrupt.advanceTime
  split
  · refine h.permute (.refl _) h.sorted rfl ?_ ?_
    · exact Nat.le_add_right _ _
    · simp only
      omega
  · refine h.permute (.refl _) h.sorted rfl ?_ ?_
    · exact Nat.le_add_right _ _
    · simp only
      omega

/-- What is scheduled is new, and due after everything that has occurred. -/
theorem Queue.schedule {handler : H} {arg : BitVec 32} {fromNow : ℕ} {type : IntType}
    (h : Queue m r σ) (hs : σ.schedule handler arg fromNow type = some τ) :
    Queue (m ++ [σ.toOccur handler arg fromNow type]) r τ ∧ τ.stats = σ.stats ∧
      τ.status = σ.status := by
  unfold Interrupt.schedule at hs
  split at hs
  case isFalse => cases hs
  cases hs
  set q := σ.toOccur handler arg fromNow type with hq
  have hnew : q ∉ m := fun hm => (h.fresh q hm).ne rfl
  refine ⟨⟨h.sorted.sortedInsert _ _, ?_, ?_, ?_, ?_, h.order, h.past, ?_, h.ticks⟩, rfl, rfl⟩
  · intro e he
    rcases ListElement.mem_sortedInsert.mp he with rfl | he
    · rfl
    · exact h.key e he
  · have hp := (ListElement.sortedInsert_perm q q.when σ.pending).map (·.item)
    have happ := (hp.append_right r).trans ((h.perm.cons q).trans (List.perm_append_singleton q m).symm)
    exact happ
  · intro p hp
    rcases List.mem_append.mp hp with hp | hp
    · exact Nat.lt_succ_of_lt (h.fresh p hp)
    · rw [List.mem_singleton.mp hp]
      exact Nat.lt_succ_self _
  · exact List.nodup_append.mpr ⟨h.nodup, List.nodup_singleton _, fun a ha b hb => by
      rw [List.mem_singleton.mp hb]
      exact fun hab => hnew (hab ▸ ha)⟩
  · intro p hp e he
    rcases ListElement.mem_sortedInsert.mp he with rfl | he
    · exact (h.past p hp).trans (Nat.le_add_right _ _)
    · exact h.ahead p hp e he

/-- Taking the first interrupt off and putting it back permutes the queue. -/
theorem Queue.putBack {e : ListElement (PendingInterrupt H)}
    {rest : List (ListElement (PendingInterrupt H))} (h : Queue m r σ)
    (hp : σ.pending = e :: rest)
    (ht : τ.pending = ListElement.sortedInsert e.item e.key rest)
    (hn : τ.scheduled = σ.scheduled) (hle : σ.stats.totalTicks ≤ τ.stats.totalTicks)
    (hs : τ.stats.totalTicks = τ.stats.idleTicks + τ.stats.systemTicks + τ.stats.userTicks) :
    Queue m r τ := by
  have hrest : ListElement.Sorted rest := by
    have hsort := h.sorted
    rw [hp] at hsort
    exact hsort.of_cons
  refine h.permute ?_ ?_ hn hle hs
  · rw [ht, hp]
    exact ListElement.sortedInsert_perm _ _ _
  · rw [ht]
    exact hrest.sortedInsert _ _

/-- The first interrupt of the queue occurs, and no later one is due before. -/
theorem Queue.fire {e : ListElement (PendingInterrupt H)}
    {rest : List (ListElement (PendingInterrupt H))} (h : Queue m r σ)
    (hp : σ.pending = e :: rest) (ht : τ.pending = rest)
    (hn : τ.scheduled = σ.scheduled) (hle : σ.stats.totalTicks ≤ τ.stats.totalTicks)
    (hdue : e.key ≤ τ.stats.totalTicks)
    (hs : τ.stats.totalTicks = τ.stats.idleTicks + τ.stats.systemTicks + τ.stats.userTicks) :
    Queue m (r ++ [e.item]) τ := by
  have hsort := h.sorted
  rw [hp] at hsort
  have hmem : ∀ x ∈ rest, x ∈ σ.pending := fun x hx => hp ▸ List.mem_cons_of_mem e hx
  have he : e ∈ σ.pending := hp ▸ List.mem_cons_self
  have hkey := h.key e he
  refine ⟨?_, ?_, ?_, ?_, h.nodup, ?_, ?_, ?_, hs⟩
  · rw [ht]
    exact hsort.of_cons
  · rw [ht]
    exact fun x hx => h.key x (hmem x hx)
  · have hperm := h.perm
    rw [items, hp] at hperm
    rw [items, ht, ← List.append_assoc]
    exact (List.perm_append_singleton _ _).trans hperm
  · rw [hn]
    exact h.fresh
  · refine List.pairwise_append.mpr ⟨h.order, List.pairwise_singleton _ _, ?_⟩
    intro p hpr q hq
    rw [List.mem_singleton.mp hq, ← hkey]
    exact h.ahead p hpr e he
  · intro p hpr
    rcases List.mem_append.mp hpr with hpr | hpr
    · exact (h.past p hpr).trans hle
    · rw [List.mem_singleton.mp hpr, ← hkey]
      exact hdue
  · intro p hpr x hx
    rw [ht] at hx
    rcases List.mem_append.mp hpr with hpr | hpr
    · exact h.ahead p hpr x (hmem x hx)
    · rw [List.mem_singleton.mp hpr, ← hkey]
      exact List.rel_of_pairwise_cons hsort hx

/-- `CheckIfDue` keeps the queue. The interrupt it fires is due, and when it answers `FALSE`
while the machine is not idle, nothing is. -/
theorem Queue.checkIfDue {adv : Bool} {o : Option (PendingInterrupt H)} (h : Queue m r σ)
    (hc : checkIfDue σ adv = some (τ, o)) :
    Queue m (r ++ o.toList) τ ∧ σ.stats.totalTicks ≤ τ.stats.totalTicks ∧
      (σ.status ≠ .IdleMode → o = none → ∀ e ∈ τ.pending, τ.stats.totalTicks < e.key) := by
  rcases checkIfDue_cases hc with
    ⟨hp, rfl, rfl⟩ | ⟨e, rest, hp, ⟨-, hlt, rfl, rfl⟩ | ⟨st, hst, hτ⟩⟩
  · refine ⟨by simpa using h, le_rfl, fun _ _ e he => ?_⟩
    rw [hp] at he
    cases he
  · refine ⟨?_, le_rfl, fun _ _ x hx => ?_⟩
    · rw [Option.toList_none, List.append_nil]
      exact h.putBack hp rfl rfl le_rfl h.ticks
    · have hsort := h.sorted
      rw [hp] at hsort
      rcases ListElement.mem_sortedInsert.mp hx with rfl | hx
      · exact hlt
      · exact hlt.trans_le (List.rel_of_pairwise_cons hsort hx)
  · have hticks := h.ticks
    have hclock : σ.stats.totalTicks ≤ st.totalTicks ∧ e.key ≤ st.totalTicks ∧
        st.totalTicks = st.idleTicks + st.systemTicks + st.userTicks := by
      rcases hst with ⟨rfl, hle⟩ | ⟨rfl, hlt⟩
      · exact ⟨le_rfl, hle, hticks⟩
      · refine ⟨hlt.le, le_rfl, ?_⟩
        simp only [idleUntil]
        omega
    obtain ⟨hle, hdue, hsum⟩ := hclock
    rcases hτ with ⟨hidle, rfl, rfl⟩ | ⟨rfl, rfl⟩
    · refine ⟨?_, hle, fun hn => absurd hidle hn⟩
      rw [Option.toList_none, List.append_nil]
      exact h.putBack hp rfl rfl hle hsum
    · refine ⟨?_, hle, fun _ hn => by cases hn⟩
      exact h.fire hp rfl rfl hle hdue hsum

/-! ## Runs -/

variable {tr es : List (QEvent H)} {h h' : Hardware H} {c : Call H}

@[simp] theorem made_append (tr es : List (QEvent H)) : made (tr ++ es) = made tr ++ made es :=
  List.filterMap_append

@[simp] theorem ran_append (tr es : List (QEvent H)) : ran (tr ++ es) = ran tr ++ ran es :=
  List.filterMap_append

/-- Outside of `Idle` the status is not, and will not again be, `IdleMode`. -/
def Hardware.Busy (h : Hardware H) : Prop :=
  match h.point with
  | .kernel | .check .oneTick => h.int.status ≠ .IdleMode
  | .handler .oneTick old => old ≠ .IdleMode
  | _ => True

structure Sound (tr : List (QEvent H)) (h : Hardware H) : Prop where
  queue : Queue (made tr) (ran tr) h.int
  due : ∀ p now, .ran p now ∈ tr → p.when ≤ now
  busy : h.Busy

/-- What a step does: the clock does not go back, a handler is called at the time the clock
shows, and the loop of `OneTick` leaves nothing that is overdue. -/
structure Forward (h : Hardware H) (es : List (QEvent H)) (h' : Hardware H) : Prop where
  time : h.int.stats.totalTicks ≤ h'.int.stats.totalTicks
  clock : ∀ p now, .ran p now ∈ es → now = h'.int.stats.totalTicks
  drained : .drained ∈ es → ∀ e ∈ h'.int.pending, h'.int.stats.totalTicks < e.item.when

theorem Forward.silent (ht : h.int.stats.totalTicks ≤ h'.int.stats.totalTicks) :
    Forward h [] h' where
  time := ht
  clock p now hm := by cases hm
  drained hd := by cases hd

theorem sound_boot : Sound [] (⟨boot, .kernel⟩ : Hardware H) where
  queue := queue_boot
  due p now hp := by cases hp
  busy := by simp [Hardware.Busy, boot]

/-- A step that neither touches the queue nor the clock. -/
theorem Sound.quiet (hs : Sound tr h) (hp : h'.int.pending = h.int.pending)
    (ht : h'.int.stats = h.int.stats) (hn : h'.int.scheduled = h.int.scheduled)
    (hb : h'.Busy) : Sound (tr ++ []) h' ∧ Forward h [] h' := by
  refine ⟨⟨?_, ?_, hb⟩, .silent (by rw [ht])⟩
  · simpa using hs.queue.congr hp ht hn
  · simpa using hs.due

/-- `CheckIfDue` fires an interrupt. -/
theorem Sound.fired {adv : Bool} {pt : Point} (hs : Sound tr h)
    (hc : σ.checkIfDue adv = some (τ, some p)) (hp : σ.pending = h.int.pending)
    (ht : σ.stats = h.int.stats) (hn : σ.scheduled = h.int.scheduled)
    (hb : Hardware.Busy ⟨τ, pt⟩) :
    Sound (tr ++ [.ran p τ.stats.totalTicks]) ⟨τ, pt⟩ ∧
      Forward h [.ran p τ.stats.totalTicks] ⟨τ, pt⟩ := by
  obtain ⟨hq, hle, -⟩ := (hs.queue.congr hp ht hn).checkIfDue hc
  refine ⟨⟨?_, fun q now hm => ?_, hb⟩, ⟨?_, fun q now hm => ?_, fun hd => by simp at hd⟩⟩
  · simpa [made, ran] using hq
  · rcases List.mem_append.mp hm with hm | hm
    · exact hs.due q now hm
    · cases List.mem_singleton.mp hm
      exact hq.past p (by simp)
  · rw [← ht]
    exact hle
  · cases List.mem_singleton.mp hm
    rfl

theorem Sound.schedule {handler : H} {arg : BitVec 32} {fromNow : ℕ} {type : IntType}
    (hs : Sound tr h) (hc : h.int.schedule handler arg fromNow type = some τ) :
    Sound (tr ++ [.scheduled (h.int.toOccur handler arg fromNow type)]) ⟨τ, h.point⟩ ∧
      Forward h [.scheduled (h.int.toOccur handler arg fromNow type)] ⟨τ, h.point⟩ := by
  obtain ⟨hq, ht, hst⟩ := hs.queue.schedule hc
  refine ⟨⟨?_, fun q now hm => ?_, ?_⟩, ⟨by rw [ht], fun _ _ hm => (by simp at hm), fun hd => by simp at hd⟩⟩
  · simpa [made, ran] using hq
  · exact hs.due q now (by simpa using hm)
  · have hb := hs.busy
    rwa [Hardware.Busy, hst]

theorem Sound.checkIfDue {l : Loop} (hs : Sound tr h) (hpt : h.point = .check l)
    (hc : next h .checkIfDue = some (h', es)) : Sound (tr ++ es) h' ∧ Forward h es h' := by
  have hb := hs.busy
  have hhandler : ∀ σ, Hardware.Busy (⟨σ, .handler l h.int.status⟩ : Hardware H) := by
    intro σ
    cases l with
    | oneTick => simpa [Hardware.Busy, hpt] using hb
    | idle => trivial
  unfold next at hc
  rw [hpt] at hc
  simp only at hc
  split at hc
  · next σ p hd =>
    cases hc
    exact hs.fired hd rfl rfl rfl (hhandler σ)
  · next σ hd =>
    cases hc
    obtain ⟨hq, hle, hnone⟩ := hs.queue.checkIfDue hd
    have hbusy : h.int.status ≠ .IdleMode := by simpa [Hardware.Busy, hpt] using hb
    have hend : (endOneTick σ).pending = σ.pending ∧ (endOneTick σ).stats = σ.stats ∧
        (endOneTick σ).scheduled = σ.scheduled ∧ (endOneTick σ).status ≠ .IdleMode := by
      have hst : σ.status ≠ .IdleMode := by
        rcases checkIfDue_cases hd with ⟨-, rfl, -⟩ | ⟨_, _, _, ⟨-, -, -, rfl⟩ | ⟨_, _, h | h⟩⟩
        · exact hbusy
        · exact hbusy
        · exact absurd h.1 hbusy
        · cases h.1
      unfold endOneTick
      split
      · exact ⟨rfl, rfl, rfl, by simp⟩
      · exact ⟨rfl, rfl, rfl, hst⟩
    obtain ⟨hpend, hstats, hsched, hst⟩ := hend
    refine ⟨⟨?_, fun q now hm => ?_, ?_⟩, ⟨?_, fun _ _ hm => (by simp at hm), fun _ e he => ?_⟩⟩
    · have hq' := hq.congr hpend hstats hsched
      simpa [made, ran] using hq'
    · exact hs.due q now (by simpa using hm)
    · exact hst
    · rw [hstats]
      exact hle
    · rw [hpend] at he
      rw [hstats, ← hq.key e he]
      exact hnone hbusy rfl e he
  · next σ hd =>
    cases hc
    obtain ⟨hq, hle, -⟩ := hs.queue.checkIfDue hd
    refine ⟨⟨?_, fun q now hm => ?_, ?_⟩, .silent hle⟩
    · simpa [made, ran] using hq.congr (τ := endIdle σ) rfl rfl rfl
    · exact hs.due q now (by simpa using hm)
    · simp [Hardware.Busy, endIdle]
  · cases hc

theorem Sound.idle (hs : Sound tr h) (hpt : h.point = .kernel)
    (hc : next h .idle = some (h', es)) : Sound (tr ++ es) h' ∧ Forward h es h' := by
  unfold next at hc
  rw [hpt] at hc
  simp only at hc
  split at hc
  · next σ p hd =>
    cases hc
    exact hs.fired hd rfl rfl rfl trivial
  · next σ hd =>
    cases hc
    have hidle : Queue (made tr) (ran tr) { h.int with status := .IdleMode } :=
      hs.queue.congr rfl rfl rfl
    obtain ⟨hq, hle, -⟩ := hidle.checkIfDue hd
    refine ⟨⟨?_, fun q now hm => ?_, trivial⟩, .silent hle⟩
    · simpa [made, ran] using hq
    · exact hs.due q now (by simpa using hm)
  · cases hc

theorem sound_step (hs : Sound tr h) (hc : next h c = some (h', es)) :
    Sound (tr ++ es) h' ∧ Forward h es h' := by
  have hb := hs.busy
  cases c with
  | checkIfDue =>
    cases hpt : h.point with
    | check l => exact hs.checkIfDue hpt hc
    | _ => simp [next, hpt] at hc
  | idle =>
    cases hpt : h.point with
    | kernel => exact hs.idle hpt hc
    | _ => simp [next, hpt] at hc
  | schedule handler arg fromNow type =>
    have hsched : (h.int.schedule handler arg fromNow type).map (fun σ => ((⟨σ, h.point⟩ :
        Hardware H), [.scheduled (h.int.toOccur handler arg fromNow type)])) = some (h', es) := by
      cases hpt : h.point <;> simp [next, hpt] at hc ⊢ <;> exact hc
    obtain ⟨σ, hσ, he⟩ := Option.map_eq_some_iff.mp hsched
    cases he
    exact hs.schedule hσ
  | setStatus st =>
    cases hpt : h.point with
    | kernel =>
      simp only [next, hpt] at hc
      split at hc
      · cases hc
      · next hst =>
        cases hc
        exact hs.quiet rfl rfl rfl hst
    | _ => simp [next, hpt] at hc
  | changeLevel now =>
    cases hpt : h.point with
    | kernel =>
      simp only [next, hpt] at hc
      cases hc
      refine hs.quiet rfl rfl rfl ?_
      simpa [Hardware.Busy, hpt, Interrupt.changeLevel] using hb
    | _ => simp [next, hpt] at hc
  | oneTick =>
    cases hpt : h.point with
    | kernel =>
      simp only [next, hpt] at hc
      cases hc
      have hst : h.int.advanceTime.status = h.int.status := by
        unfold advanceTime
        split <;> rfl
      refine ⟨⟨?_, ?_, ?_⟩, .silent (le_advanceTime h.int)⟩
      · simpa using hs.queue.advanceTime.congr (τ := h.int.advanceTime.changeLevel .IntOff)
          rfl rfl rfl
      · simpa using hs.due
      · simpa [Hardware.Busy, hpt, changeLevel, hst] using hb
    | _ => simp [next, hpt] at hc
  | yieldOnReturn =>
    cases hpt : h.point with
    | handler l old =>
      simp only [next, hpt] at hc
      obtain ⟨σ, hσ, he⟩ := Option.map_eq_some_iff.mp hc
      cases he
      unfold setYieldOnReturn at hσ
      split at hσ
      · cases hσ
        refine hs.quiet rfl rfl rfl ?_
        cases l with
        | oneTick => simpa [Hardware.Busy, hpt] using hb
        | idle => trivial
      · cases hσ
    | _ => simp [next, hpt] at hc
  | handlerReturn =>
    cases hpt : h.point with
    | handler l old =>
      simp only [next, hpt] at hc
      cases hc
      refine hs.quiet rfl rfl rfl ?_
      cases l with
      | oneTick => simpa [Hardware.Busy, hpt, handlerReturn] using hb
      | idle => trivial
    | _ => simp [next, hpt] at hc

theorem sound_run (hr : (hardware H).Run tr h) : Sound tr h := by
  refine hr.invariant (I := Sound) (fun s hs => ?_) fun _ hs hst => ?_
  · cases hs
    exact sound_boot
  · obtain ⟨c, hc⟩ := hst
    exact (sound_step hs hc).1

/-- What the queue is for. -/
structure InOrder [DecidableEq H] (tr : List (QEvent H)) (h : Hardware H) : Prop where
  ticks : h.int.stats.totalTicks =
    h.int.stats.idleTicks + h.int.stats.systemTicks + h.int.stats.userTicks
  order : (ran tr).Pairwise (·.when ≤ ·.when)
  due : ∀ p now, .ran p now ∈ tr → p.when ≤ now
  once : ∀ p ∈ made tr,
    (items h.int).count p = 1 ∧ (ran tr).count p = 0 ∨
      (items h.int).count p = 0 ∧ (ran tr).count p = 1
  only : ∀ p, p ∈ items h.int ∨ p ∈ ran tr → p ∈ made tr
  step : ∀ es h', (hardware H).step h es h' → Forward h es h'

/-- Under any sequence of calls, every interrupt that has been scheduled is pending or has
occurred, once, in the order of the due times and on time. -/
theorem inOrder_run [DecidableEq H] (hr : (hardware H).Run tr h) : InOrder tr h := by
  have hs := sound_run hr
  have hq := hs.queue
  refine ⟨hq.ticks, hq.order, hs.due, fun p hp => ?_, fun p hp => ?_, fun es h' hst => ?_⟩
  · have hcount : (items h.int).count p + (ran tr).count p = 1 := by
      rw [← List.count_append, hq.perm.count_eq]
      exact List.count_eq_one_of_mem hq.nodup hp
    omega
  · rw [← hq.perm.mem_iff]
    exact List.mem_append.mpr hp
  · obtain ⟨c, hc⟩ := hst
    exact (sound_step hs hc).2

/-- The timer and a disk are scheduled. The clock passes the time of the disk; its handler
schedules a third interrupt, and all three keep their order. -/
theorem inOrder_disk : ∃ tr h, (hardware Unit).Run tr h ∧ InOrder tr h ∧
    (ran tr).map (·.when) = [7, 12] ∧ (items h.int).map (·.when) = [100] := by
  obtain ⟨tr, h, hr, _, hp⟩ := System.exists_run_of_exec (⟨boot, .kernel⟩ : Hardware Unit) next
    [.schedule () 0 100 .TimerInt, .schedule () 0 7 .DiskInt, .oneTick, .checkIfDue,
      .schedule () 0 2 .DiskInt, .handlerReturn, .checkIfDue, .changeLevel .IntOff, .idle]
    (fun r => decide ((ran r.2).map (·.when) = [7, 12] ∧ (items r.1.int).map (·.when) = [100]))
    (by decide +kernel)
  have hp := of_decide_eq_true hp
  exact ⟨tr, h, hr, inOrder_run hr, hp.1, hp.2⟩

end Nachos.Interrupt
