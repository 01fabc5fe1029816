import Nachos.Machine.InterruptQueue

/-!
# Devices on the interrupt queue

A device schedules interrupts with a handler of its own, and no other code does. What is left of
its interrupts follows from what it has scheduled and which of them have occurred.
-/
namespace Nachos.Interrupt

variable {H : Type} {tr es : List (QEvent H)} {h h' : Hardware H} {c : Call H}

/-- Code of the kernel, of a user program or of a handler runs, and may call `Schedule`. -/
def Point.Runs : Point → Prop
  | .kernel | .handler _ _ => True
  | _ => False

instance (pt : Point) : Decidable pt.Runs := by
  unfold Point.Runs
  split <;> infer_instance

theorem next_schedule (handler : H) (arg : BitVec 32) {fromNow : ℕ} (type : IntType)
    (hruns : h.point.Runs) (hpos : 0 < fromNow) :
    ∃ σ, h.int.schedule handler arg fromNow type = some σ ∧
      next h (.schedule handler arg fromNow type) =
        some (⟨σ, h.point⟩, [.scheduled (h.int.toOccur handler arg fromNow type)]) := by
  have hsome : ∃ σ, h.int.schedule handler arg fromNow type = some σ :=
    ⟨_, if_pos hpos⟩
  obtain ⟨σ, hσ⟩ := hsome
  refine ⟨σ, hσ, ?_⟩
  cases hpt : h.point with
  | kernel => simp [next, hpt, hσ]
  | handler l old => simp [next, hpt, hσ]
  | check l => simp [hpt, Point.Runs] at hruns
  | halted => simp [hpt, Point.Runs] at hruns

/-- `Schedule` is called by running code, for a time in the future. -/
theorem next_schedule_cases {handler : H} {arg : BitVec 32} {fromNow : ℕ} {type : IntType}
    (hc : next h (.schedule handler arg fromNow type) = some (h', es)) :
    h.point.Runs ∧ 0 < fromNow ∧ h'.point = h.point ∧ h'.int.stats = h.int.stats ∧
      h'.int.status = h.int.status ∧ h'.int.inHandler = h.int.inHandler ∧
      es = [.scheduled (h.int.toOccur handler arg fromNow type)] := by
  have hruns : h.point.Runs := by
    cases hpt : h.point with
    | kernel => trivial
    | handler l old => trivial
    | check l => simp [next, hpt] at hc
    | halted => simp [next, hpt] at hc
  have hpos : 0 < fromNow := by
    by_contra hn
    cases hpt : h.point <;> simp [next, hpt, schedule, hn] at hc
  obtain ⟨σ, hσ, hn⟩ := next_schedule handler arg type hruns hpos
  rw [hn] at hc
  cases hc
  rw [schedule, if_pos hpos] at hσ
  cases hσ
  exact ⟨hruns, hpos, rfl, rfl, rfl, rfl, rfl⟩

/-- A handler is called in system mode, with `inHandler` set. -/
theorem checkIfDue_handler {σ τ : Interrupt H} {adv : Bool} {p : PendingInterrupt H}
    (hc : checkIfDue σ adv = some (τ, some p)) :
    τ.status = .SystemMode ∧ τ.inHandler = true := by
  rcases checkIfDue_cases hc with
    ⟨-, -, hp⟩ | ⟨e, rest, -, ⟨-, -, hp, -⟩ | ⟨st, -, ⟨-, hp, -⟩ | ⟨-, rfl⟩⟩⟩
  · cases hp
  · cases hp
  · cases hp
  · exact ⟨rfl, rfl⟩

/-- What the trace of a step can be. -/
theorem next_cases (hc : next h c = some (h', es)) :
    (∃ handler arg fromNow type, c = .schedule handler arg fromNow type) ∨
    (made es = [] ∧ ran es = []) ∨
    ∃ p l old, es = [.ran p h'.int.stats.totalTicks] ∧ h'.point = .handler l old ∧
      h'.int.status = .SystemMode ∧ h'.int.inHandler = true := by
  cases c with
  | schedule handler arg fromNow type => exact .inl ⟨_, _, _, _, rfl⟩
  | setStatus st =>
    refine .inr (.inl ?_)
    cases hpt : h.point <;> simp [next, hpt] at hc
    rw [hc.2.2]
    exact ⟨rfl, rfl⟩
  | changeLevel now =>
    refine .inr (.inl ?_)
    cases hpt : h.point <;> simp [next, hpt] at hc
    rw [hc.2]
    exact ⟨rfl, rfl⟩
  | oneTick =>
    refine .inr (.inl ?_)
    cases hpt : h.point <;> simp [next, hpt] at hc
    rw [hc.2]
    exact ⟨rfl, rfl⟩
  | yieldOnReturn =>
    refine .inr (.inl ?_)
    cases hpt : h.point <;> simp [next, hpt] at hc
    obtain ⟨σ, -, -, rfl⟩ := hc
    exact ⟨rfl, rfl⟩
  | handlerReturn =>
    refine .inr (.inl ?_)
    cases hpt : h.point <;> simp [next, hpt] at hc
    rw [hc.2]
    exact ⟨rfl, rfl⟩
  | idle =>
    cases hpt : h.point <;> simp only [next, hpt, reduceCtorEq] at hc
    split at hc
    · next σ p hd =>
      cases hc
      exact .inr (.inr ⟨p, _, _, rfl, rfl, checkIfDue_handler hd⟩)
    · cases hc
      exact .inr (.inl ⟨rfl, rfl⟩)
    · cases hc
  | checkIfDue =>
    cases hpt : h.point <;> simp only [next, hpt, reduceCtorEq] at hc
    split at hc
    · next σ p hd =>
      cases hc
      exact .inr (.inr ⟨p, _, _, rfl, rfl, checkIfDue_handler hd⟩)
    · cases hc
      exact .inr (.inl ⟨rfl, rfl⟩)
    · cases hc
      exact .inr (.inl ⟨rfl, rfl⟩)
    · cases hc

/-- An idle machine finds no interrupt, or only the timer's. -/
theorem checkIfDue_idle {σ τ : Interrupt H} {o : Option (PendingInterrupt H)}
    (hidle : σ.status = .IdleMode) (hc : checkIfDue σ true = some (τ, o)) :
    o = none ↔ σ.pending = [] ∨ ∃ e, σ.pending = [e] ∧ e.item.type = .TimerInt := by
  unfold checkIfDue at hc
  split at hc
  case isFalse => cases hc
  cases hp : σ.pending with
  | nil =>
    rw [hp] at hc
    cases hc
    exact iff_of_true rfl (.inl rfl)
  | cons e rest =>
    rw [hp] at hc
    have hinvoke : ∃ ρ : Interrupt H, ρ.status = .IdleMode ∧ ρ.pending = rest ∧
        some (invoke ρ e.item e.key) = some (τ, o) := by
      simp only [ListElement.sortedRemove] at hc
      split at hc
      · refine ⟨_, ?_, ?_, hc⟩
        · exact hidle
        · rfl
      · next hlt =>
        rw [if_neg fun h => hlt ⟨trivial, h⟩] at hc
        refine ⟨_, ?_, ?_, hc⟩
        · exact hidle
        · rfl
    obtain ⟨ρ, hst, hrest, hinv⟩ := hinvoke
    unfold invoke at hinv
    split at hinv
    · next halone =>
      cases hinv
      refine iff_of_true rfl (.inr ⟨e, ?_, halone.2.1⟩)
      rw [← hrest, halone.2.2]
    · next halone =>
      cases hinv
      refine iff_of_false (by simp) ?_
      rintro (hnil | ⟨x, hx, htype⟩)
      · cases hnil
      · cases hx
        exact halone ⟨hst, htype, hrest⟩

/-- `Idle` halts the machine when it finds no interrupt. -/
theorem next_idle (hc : next h .idle = some (h', es)) : h'.point = .halted ↔
    h.int.pending = [] ∨ ∃ e, h.int.pending = [e] ∧ e.item.type = .TimerInt := by
  cases hpt : h.point <;> simp only [next, hpt, reduceCtorEq] at hc
  split at hc
  · next σ p hd =>
    cases hc
    exact iff_of_false (by simp) fun h => by cases (checkIfDue_idle rfl hd).mpr h
  · next σ hd =>
    cases hc
    exact iff_of_true rfl ((checkIfDue_idle rfl hd).mp rfl)
  · cases hc

/-- Nothing is lost in a step: what is pending or occurs was pending or is scheduled. -/
theorem Sound.perm_step (hs : Sound tr h) (hc : next h c = some (h', es)) :
    (items h'.int ++ ran es).Perm (items h.int ++ made es) := by
  have hbefore := hs.queue.perm
  have hafter := (sound_step hs hc).1.queue.perm
  rw [made_append, ran_append] at hafter
  have hmove : (items h'.int ++ ran es ++ ran tr).Perm (items h.int ++ made es ++ ran tr) := by
    calc (items h'.int ++ ran es ++ ran tr).Perm (items h'.int ++ (ran tr ++ ran es)) := by
          rw [List.append_assoc]
          exact List.perm_append_comm.append_left _
      _ |>.Perm (made tr ++ made es) := hafter
      _ |>.Perm (items h.int ++ ran tr ++ made es) := hbefore.symm.append_right _
      _ |>.Perm (items h.int ++ made es ++ ran tr) := by
          rw [List.append_assoc, List.append_assoc]
          exact List.perm_append_comm.append_left _
  exact (List.perm_append_right_iff _).mp hmove

section Device

variable [DecidableEq H] {f : H} {o : Option (PendingInterrupt H)} {p : PendingInterrupt H}

/-- The interrupts with the handler `f` that are to occur. -/
def outstanding (f : H) (σ : Interrupt H) : List (PendingInterrupt H) :=
  (items σ).filter fun p => decide (p.handler = f)

/-- Not a call by which the device with the handler `f` schedules an interrupt. -/
def Call.foreign (f : H) : Call H → Bool
  | .schedule handler _ _ _ => decide (handler ≠ f)
  | _ => true

/-- The interrupts with the handler `f` that occur. -/
def occurs (f : H) (es : List (QEvent H)) : List (PendingInterrupt H) :=
  (ran es).filter fun p => decide (p.handler = f)

/-- The device schedules its only interrupt. -/
theorem Sound.outstanding_schedule {arg : BitVec 32} {fromNow : ℕ} {type : IntType}
    (hs : Sound tr h) (hnone : outstanding f h.int = [])
    (hc : next h (.schedule f arg fromNow type) = some (h', es)) :
    outstanding f h'.int = [h.int.toOccur f arg fromNow type] := by
  have hperm := (hs.perm_step hc).filter fun p => decide (p.handler = f)
  obtain ⟨-, -, -, -, -, -, rfl⟩ := next_schedule_cases hc
  simp only [List.filter_append] at hperm
  have hold : (items h.int).filter (fun p => decide (p.handler = f)) = [] := hnone
  rw [hold] at hperm
  change (outstanding f h'.int ++ _).Perm _ at hperm
  exact List.perm_singleton.mp (by simpa [made, ran, Interrupt.toOccur] using hperm)

/-- Other code runs: the interrupt of the device is still to occur, or it occurs in this step. -/
theorem Sound.outstanding_foreign (hs : Sound tr h) (ho : outstanding f h.int = o.toList)
    (hf : c.foreign f = true) (hc : next h c = some (h', es)) :
    (outstanding f h'.int = o.toList ∧ occurs f es = []) ∨
      ∃ p, o = some p ∧ outstanding f h'.int = [] ∧ occurs f es = [p] := by
  have hmade : (made es).filter (fun p => decide (p.handler = f)) = [] := by
    rcases next_cases hc with ⟨handler, arg, fromNow, type, rfl⟩ | ⟨hm, -⟩ | ⟨p, l, old, rfl, -⟩
    · obtain ⟨-, -, -, -, -, -, rfl⟩ := next_schedule_cases hc
      have hne : handler ≠ f := of_decide_eq_true hf
      simpa [made, Interrupt.toOccur] using hne
    · rw [hm]
      rfl
    · rfl
  have hperm := (hs.perm_step hc).filter fun p => decide (p.handler = f)
  simp only [List.filter_append] at hperm
  have hold : (items h.int).filter (fun p => decide (p.handler = f)) = o.toList := ho
  rw [hmade, hold, List.append_nil] at hperm
  change (outstanding f h'.int ++ occurs f es).Perm o.toList at hperm
  cases o with
  | none =>
    have hnil := List.append_eq_nil_iff.mp (List.perm_nil.mp hperm)
    exact .inl hnil
  | some p =>
    rcases List.append_eq_singleton_iff.mp (List.perm_singleton.mp hperm) with ⟨h₁, h₂⟩ | ⟨h₁, h₂⟩
    · exact .inr ⟨p, rfl, h₁, h₂⟩
    · exact .inl ⟨h₁, h₂⟩

/-- What occurs is the event of the step, at the time that the clock shows. -/
theorem occurs_eq_singleton (hc : next h c = some (h', es)) (hp : occurs f es = [p]) :
    es = [.ran p h'.int.stats.totalTicks] ∧ (∃ l old, h'.point = .handler l old) ∧
      h'.int.status = .SystemMode ∧ h'.int.inHandler = true := by
  rcases next_cases hc with ⟨_, _, _, _, rfl⟩ | ⟨-, hr⟩ | ⟨q, l, old, rfl, hpt, hst, hin⟩
  · obtain ⟨-, -, -, -, -, -, rfl⟩ := next_schedule_cases hc
    cases hp
  · rw [occurs, hr] at hp
    cases hp
  · have hq : q = p := by
      have hmem : p ∈ occurs f [.ran q h'.int.stats.totalTicks] := by
        rw [hp]
        exact List.mem_singleton_self p
      simpa [ran, eq_comm] using List.mem_of_mem_filter hmem
    rw [hq]
    exact ⟨rfl, ⟨l, old, hpt⟩, hst, hin⟩

/-- It is not early. -/
theorem Sound.when_le (hs : Sound tr h) (hc : next h c = some (h', es))
    (hp : occurs f es = [p]) : p.when ≤ h'.int.stats.totalTicks := by
  refine (sound_step hs hc).1.due p _ (List.mem_append_right _ ?_)
  rw [(occurs_eq_singleton hc hp).1]
  exact List.mem_singleton_self _

end Device

end Nachos.Interrupt
