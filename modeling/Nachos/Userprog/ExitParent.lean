import Nachos.Userprog.History
import Nachos.Userprog.JoinOnce

/-!
# The parent in `ExitUpdate`

`ExitUpdate` reaches the `PCB` of the parent through its slot, which is still there when
that `PCB` has been deleted. So a process must not be removed while a process it has
executed has yet to call `DecNumWait`.
-/
namespace Nachos

open Concurrent

variable {initial : ℕ → Int} {a b : State SemId Pc (Data × List Note)}
  {tr es : List (Event SemId Ev)} {ns : List Note} {t u v : Tid} {d d' : Data} {pc k : Pc}
  {o p : ObjectId}

/-- `p` is the `PCB` behind the `parentID` of the process of `t`. -/
def ParentOf (d : Data) (t : Tid) (p : ObjectId) : Prop :=
  ∃ o, d.pcb (d.processID t) = some o ∧ d.pcb (d.object o).parentID = some p

/-- The call of `DecNumWait` is still ahead, or going on. -/
def Pc.decrementing : Pc → Bool
  | .exit _ .check | .exit _ (.decP _) | .exit _ (.dec _) | .exit _ (.decV _) => true
  | _ => false

/-- The `PCB` it is called on. -/
def Pc.decrements : Pc → Option ObjectId
  | .exit _ (.decP p) | .exit _ (.dec p) | .exit _ (.decV p) => some p
  | _ => none

/-- It is over, or never comes. -/
def Pc.decremented : Pc → Bool
  | .exit _ .lookup | .exit _ (.release _) | .exit _ .lookupAgain | .exit _ (.wait _)
  | .exit _ .remove | .exit _ .finish | .halted => true
  | _ => false

/-- Every process but the first was executed by the one its `parentID` names. -/
structure ForkInv (a : State SemId Pc (Data × List Note)) : Prop where
  forked : ∀ t < a.nextTid, t ≠ 0 → ∃ v < a.nextTid, .forked v t ∈ a.data.2 ∧
    ∃ o, a.data.1.pcb (a.data.1.processID t) = some o ∧
      (a.data.1.object o).parentID = a.data.1.processID v
  decrements : ∀ t < a.nextTid, ∀ p, (a.pc t).decrements = some p → ParentOf a.data.1 t p

theorem ParentOf.kept (h : ParentOf a.data.1 t p) (ht : t < a.nextTid) (hi : TableInv a.forget)
    (hk : Kept a.forget b.forget) : ParentOf b.data.1 t p := by
  obtain ⟨o, ho, hp⟩ := h
  have hpid : b.data.1.processID t = a.data.1.processID t := hk.processID t ht
  have hpar : (b.data.1.object o).parentID = (a.data.1.object o).parentID :=
    hk.parentID o (hi.slot _ o ho).2.2
  exact ⟨o, by rw [hpid]; exact hk.slot _ o ho, by rw [hpar]; exact hk.slot _ p hp⟩

/-- The parent is looked up in the first step of `ExitUpdate`. -/
theorem decrements_move (hm : Move d v es pc k) (hk : k.decrements = some p) :
    pc.decrements = some p ∨ ParentOf d v p := by
  cases hm with
  | P hc | V hc => cases hc <;> first | exact .inl hk | cases hk
  | tick | fork => cases hk
  | act hl =>
    cases hl with
    | exitSet _ ho hp =>
      cases hk
      exact .inr ⟨_, ho, hp⟩
    | exitDec => exact .inl hk
    | newSpace _ _ _ hk' => rcases hk' with rfl | ⟨_, rfl⟩ | rfl <;> cases hk
    | noProgram hk' | callSem hk' => rcases hk' with ⟨_, rfl⟩ | ⟨_, rfl⟩ <;> cases hk
    | user _ hk' => cases hk' <;> cases hk
    | removeFinish => split at hk <;> cases hk
    | _ => cases hk

theorem fork_step (hs : Noted (process initial) notes a es b) (hi : TableInv a.forget)
    (h : ForkInv a) : ForkInv b := by
  have hk := kept_of_step (processStep_of_step hs.forget) hi
  obtain ⟨ns, hns, hm⟩ := moved_of_noted hs
  have hold : ∀ t < a.nextTid, t ≠ 0 → ∃ v < b.nextTid, .forked v t ∈ b.data.2 ∧
      ∃ o, b.data.1.pcb (b.data.1.processID t) = some o ∧
        (b.data.1.object o).parentID = b.data.1.processID v := by
    intro t ht h0
    obtain ⟨v, hv, hf, o, ho, hpar⟩ := h.forked t ht h0
    have hpid : b.data.1.processID t = a.data.1.processID t := hk.processID t ht
    refine ⟨v, lt_of_lt_of_le hv hk.nextTid, by rw [hns]; exact List.mem_append_left ns hf, o, ?_, ?_⟩
    · rw [hpid]
      exact hk.slot _ o ho
    · exact (hk.parentID o (hi.slot _ o ho).2.2).trans (hpar.trans (hk.processID v hv).symm)
  constructor
  · intro t ht h0
    cases hm t with
    | rest hv => exact hold t (hv ht) h0
    | own hv => exact hold t hv h0
    | @new v i o name hv hvt hpc hns' hpid hfork =>
      have hl : (a.pc v).Looked a.data.1 v := hi.looked v hvt
      rw [hfork] at hl
      obtain ⟨_, _, ho, hpar⟩ := hl
      refine ⟨v, lt_of_lt_of_le hvt hk.nextTid, by simp [hns, hns'], o, ?_, ?_⟩
      · rw [hpid]
        exact hk.slot i o ho
      · exact (hk.parentID o (hi.slot i o ho).2.2).trans (hpar.trans (hk.processID v hvt).symm)
  · intro t ht p hp
    cases hm t with
    | rest hv hpc => exact (h.decrements t (hv ht) p (hpc ▸ hp)).kept (hv ht) hi hk
    | new _ _ hpc => simp [hpc, Pc.decrements] at hp
    | own hv hmt =>
      obtain ⟨_, hmove⟩ := hmt.forget
      rcases decrements_move hmove hp with hp | hp
      · exact (h.decrements t hv p hp).kept hv hi hk
      · exact hp.kept hv hi hk

theorem fork_run (h : (atomic (history initial)).Run tr a) : ForkInv a := by
  refine h.invariant (I := fun _ a => ForkInv a) ?_ ?_
  · rintro a rfl
    constructor
    · intro t ht h0
      exact absurd (Nat.lt_one_iff.mp ht) h0
    · simp [Program.initial, history, Program.noting, process, Pc.decrements]
  · intro tr a es b hr hi hs
    exact fork_step (noted_of_step hs) (table_run (forget_run hr)) hi

/-- A process is removed only when the processes it has executed are past `DecNumWait`. -/
def ChildrenGone (a : State SemId Pc (Data × List Note)) (es : List (Event SemId Ev)) : Prop :=
  ∀ u p, .act u (.destroyed p) ∈ es → ∀ t < a.nextTid, a.data.1.processID t ≠ 0 →
    ParentOf a.data.1 t p → (a.pc t).decremented = true

/-- Past it a thread stays past it. -/
theorem decremented_move (hm : Move d v es pc k)
    (hself : ∀ o, d.pcb (d.processID v) = some o → (d.object o).thread = some v)
    (hslot : d.pcb (d.processID v) ≠ none) (h : pc.decremented = true) : k.decremented = true := by
  cases hm with
  | P hc | V hc => cases hc <;> first | rfl | cases h
  | tick | fork => cases h
  | act hls =>
    cases hls with
    | halt | exitLookup | exitLookupAgain => rfl
    | removeFinish => split <;> rfl
    | removeNone ho => exact absurd ho hslot
    | removeClear ho hu => simp [hself _ ho] at hu
    | newSpace _ _ hpc => rcases hpc with rfl | ⟨_, rfl⟩ <;> cases h
    | _ => cases h

/-- The processes a removed process has executed are past `DecNumWait`. -/
def OrphansDone (tr : List (Event SemId Ev)) (a : State SemId Pc (Data × List Note)) : Prop :=
  ∀ u p, .act u (.destroyed p) ∈ tr → ∀ t < a.nextTid, a.data.1.processID t ≠ 0 →
    ParentOf a.data.1 t p → (a.pc t).decremented = true

/-- The parent of an old thread was the same before a step. -/
theorem ParentOf.of_kept (h : ParentOf b.data.1 t p) (ht : t < a.nextTid)
    (h0 : a.data.1.processID t ≠ 0) (hi : TableInv a.forget) (hf : ForkInv a)
    (hk : Kept a.forget b.forget) : ParentOf a.data.1 t p := by
  have ht0 : t ≠ 0 := by
    rintro rfl
    exact h0 hi.root.2.2.2
  obtain ⟨v, hv, _, o, ho, hpar⟩ := hf.forked t ht ht0
  obtain ⟨q, hq⟩ : ∃ q, a.data.1.pcb (a.data.1.processID v) = some q := hi.occupied hv
  have hq : ParentOf a.data.1 t q := ⟨o, ho, by rw [hpar, hq]⟩
  obtain ⟨o₁, ho₁, hp⟩ := h
  obtain ⟨o₂, ho₂, hq'⟩ := hq.kept ht hi hk
  rw [ho₁, Option.some.injEq] at ho₂
  subst ho₂
  rw [hp, Option.some.injEq] at hq'
  exact hq' ▸ hq

/-- A process that has been removed executes no other. -/
theorem not_fork_of_destroyed {u : Tid} {i : Int} {name : String}
    (h : Shaken tr a.forget p) (hi : TableInv a.forget) (hd : .act u (.destroyed p) ∈ tr)
    (ht : t < a.nextTid) (hpcb : a.data.1.pcb (a.data.1.processID t) = some p) :
    a.pc t ≠ .exec (.fork i o name) := by
  intro hpc
  obtain ⟨r, n, hn, hst, _⟩ := destroyed_stage h hd
  have hth := (hst.exited (by omega)).1
  obtain ⟨_, hlt, hslot⟩ := hst.slot hi hth
  have hid : a.forget.data.processID r.child = a.forget.data.processID t :=
    hi.unique _ _ p hslot hpcb
  have heq : r.child = t := hi.processID_inj hlt ht hid
  have hex := hst.child r.child hth
  rw [heq, State.forget_pc, hpc] at hex
  simp only [Pc.exiting] at hex
  omega

theorem orphans_step (hs : Noted (process initial) notes a es b) (hi : TableInv a.forget)
    (hf : ForkInv a) (hsh : ∀ p, Shaken tr a.forget p) (hg : ChildrenGone a es)
    (h : OrphansDone tr a) : OrphansDone (tr ++ es) b := by
  have hstep := processStep_of_step hs.forget
  have hk := kept_of_step hstep hi
  obtain ⟨ns, hns, hm⟩ := moved_of_noted hs
  intro u p hd t ht h0 hp
  -- an old thread was past it before the step
  have hold : t < a.nextTid → (a.pc t).decremented = true := by
    intro hlt
    have h0' : a.data.1.processID t ≠ 0 := by
      have hpid : b.data.1.processID t = a.data.1.processID t := hk.processID t hlt
      rwa [← hpid]
    have hp' := hp.of_kept hlt h0' hi hf hk
    rcases List.mem_append.mp hd with hd | hd
    · exact h u p hd t hlt h0' hp'
    · exact hg u p hd t hlt h0' hp'
  cases hm t with
  | rest hv hpc =>
    rw [hpc]
    exact hold (hv ht)
  | own hv hmt =>
    obtain ⟨_, hmove⟩ := hmt.forget
    have hpid : b.data.1.processID t = a.data.1.processID t := hk.processID t hv
    rw [hpid] at h0
    refine decremented_move hmove (fun o ho => hi.self hv h0 ho) ?_ (hold hv)
    obtain ⟨o, ho, _⟩ := hi.process hv h0
    simpa using Option.ne_none_iff_exists'.mpr ⟨o, ho⟩
  | @new v i o name hv hvt hpc hns' hpid hfork =>
    -- its parent is about to fork, so it has not been removed
    have hl : (a.pc v).Looked a.data.1 v := hi.looked v hvt
    rw [hfork] at hl
    obtain ⟨_, _, ho, hpar⟩ := hl
    obtain ⟨q, hq⟩ : ∃ q, a.data.1.pcb (a.data.1.processID v) = some q := hi.occupied hvt
    have hqp : q = p := by
      obtain ⟨o', ho', hp'⟩ := hp
      have hsome : b.data.1.pcb i = some o := hk.slot i o ho
      rw [hpid, hsome, Option.some.injEq] at ho'
      subst ho'
      have hparent : (b.data.1.object o).parentID = a.data.1.processID v :=
        (hk.parentID o (hi.slot i o ho).2.2).trans hpar
      have hq' : b.data.1.pcb (a.data.1.processID v) = some q := hk.slot _ q hq
      rw [hparent, hq', Option.some.injEq] at hp'
      exact hp'
    subst hqp
    rcases List.mem_append.mp hd with hd | hd
    · exact absurd hfork (not_fork_of_destroyed (hsh q) hi hd hvt hq)
    · cases moved_of_step hstep t with
      | rest hlt => exact absurd (hlt ht) hv.not_lt
      | new _ _ hes => simp [hes] at hd
      | own hlt => exact absurd hlt hv.not_lt

theorem orphans_run (h : ((atomic (history initial)).restrict ChildrenGone).Run tr a) :
    OrphansDone tr a := by
  refine h.invariant ?_ ?_
  · intro a _ u p hd
    simp at hd
  · intro tr a es b hr hi hs
    have hrun := hr.of_restrict
    have hforget := forget_run hrun
    exact orphans_step (noted_of_step hs.1) (table_run hforget) (fork_run hrun)
      (fun p => shaken_run hforget p) hs.2 hi

section Kernel

variable {σ : Kernel SemId Pc (Data × List Note)} {tr : List (KEvent SemId Ev)}

/-- Whoever executes `ExitUpdate` in a process other than `0`, up to the end of
`DecNumWait`: its `parentID` is an index of the table, and there is the `PCB` of the process
that executed it, not deleted, which is the one `DecNumWait` is called on. -/
def ParentLive (tr : List (KEvent SemId Ev)) (σ : Kernel SemId Pc (Data × List Note)) : Prop :=
  ∀ t < σ.nextTid, σ.data.1.processID t ≠ 0 → (σ.pc t).decrementing = true →
    ∃ v o p, .forked v t ∈ σ.data.2 ∧ σ.data.1.pcb (σ.data.1.processID t) = some o ∧
      (σ.data.1.object o).parentID = σ.data.1.processID v ∧
      0 ≤ (σ.data.1.object o).parentID ∧ (σ.data.1.object o).parentID < psize ∧
      σ.data.1.pcb (σ.data.1.object o).parentID = some p ∧
      (∀ u, .sync (.act u (.destroyed p)) ∉ tr) ∧ ∀ q, (σ.pc t).decrements = some q → q = p

/-- The parent is alive in every run that removes no process before those it has executed
are past `DecNumWait`. -/
theorem parent_live (h : ((kernel (history initial)).restrict fun σ es =>
    ChildrenGone σ.atomically (synced es)).Run tr σ) : ParentLive tr σ := by
  have hr := atomic_run_restrict (G := ChildrenGone) (by simp [ChildrenGone]) h
  have hrun := hr.of_restrict
  have hi := table_run (forget_run hrun)
  have hf := fork_run hrun
  intro t ht h0 hdec
  have ht0 : t ≠ 0 := by
    rintro rfl
    exact h0 hi.root.2.2.2
  obtain ⟨v, hv, hfork, o, ho, hpar⟩ := hf.forked t ht ht0
  obtain ⟨p, hp⟩ : ∃ p, σ.data.1.pcb (σ.data.1.processID v) = some p := hi.occupied hv
  have ho : σ.data.1.pcb (σ.data.1.processID t) = some o := ho
  have hpar : (σ.data.1.object o).parentID = σ.data.1.processID v := hpar
  obtain ⟨hlow, hhigh, _⟩ := hi.slot _ p hp
  have hparent : ParentOf σ.data.1 t p := ⟨o, ho, by rw [hpar, hp]⟩
  refine ⟨v, o, p, hfork, ho, hpar, by rw [hpar]; exact hlow, by rw [hpar]; exact hhigh,
    by rw [hpar, hp], fun u hd => ?_, fun q hq => ?_⟩
  · have hdone : (σ.pc t).decremented = true :=
      orphans_run hr u p (mem_synced.mpr hd) t ht h0 hparent
    generalize σ.pc t = pc at hdec hdone
    unfold Pc.decremented at hdone
    split at hdone <;> simp [Pc.decrementing] at hdec hdone
  · obtain ⟨o', ho', hq⟩ := hf.decrements t ht q hq
    have ho' : σ.data.1.pcb (σ.data.1.processID t) = some o' := ho'
    rw [ho, Option.some.injEq] at ho'
    subst ho'
    have hq : σ.data.1.pcb (σ.data.1.object o).parentID = some q := hq
    rw [hpar, hp, Option.some.injEq] at hq
    exact hq.symm

/-- A step that removes nobody. -/
def removesNone (es : List (KEvent SemId Ev)) : Bool :=
  es.all fun
    | .sync (.act _ (.destroyed _)) => false
    | _ => true

theorem childrenGone_of_removesNone {es : List (KEvent SemId Ev)} (h : removesNone es = true)
    (a : State SemId Pc (Data × List Note)) : ChildrenGone a (synced es) := by
  intro u p hd
  exact absurd (List.all_eq_true.mp h _ (mem_synced.mp hd)) (by simp)

/-- A child executes `ExitUpdate`, and its parent is there. -/
theorem parent_live_child : ∃ tr σ, ((kernel (history fun _ => 0)).restrict fun σ es =>
    ChildrenGone σ.atomically (synced es)).Run tr σ ∧ σ.data.1.processID 1 = 1 ∧
    (σ.pc 1).decrements = some 0 ∧ ParentLive tr σ := by
  obtain ⟨tr, σ, hr, _, hp⟩ := System.exists_run_of_exec (Kernel.boot (history fun _ => 0))
    (System.guarded (Kernel.next (history fun _ => 0)) fun _ es => removesNone es)
    (bootSchedule ++ execSchedule ++ joinSchedule ++ startSchedule ++ userCalls 1 7 ++ cpu 1)
    (fun r => decide (r.1.data.1.processID 1 = 1 ∧ (r.1.pc 1).decrements = some 0))
    (by decide +kernel)
  obtain ⟨hpid, hdec⟩ := of_decide_eq_true hp
  have hr : ((kernel (history fun _ => 0)).restrict fun σ es =>
      ChildrenGone σ.atomically (synced es)).Run tr σ :=
    hr.of_guarded fun σ _ h => childrenGone_of_removesNone h σ.atomically
  exact ⟨tr, σ, hr, hpid, hdec, parent_live hr⟩

/-- Process `1` executes process `2`, exits, is joined and removed. Then process `2` exits:
the slot its `parentID` names still leads to the `PCB` that was deleted. -/
def orphanSchedule : Schedule :=
  bootSchedule ++ execSchedule ++ joinSchedule ++ startSchedule ++ execSchedule ++ exitSchedule ++
    cpu 1 ++ .interrupt .timer :: cpu 6 ++ .interrupt .timer :: cpu 2 ++ .interrupt .timer ::
    cpu 8 ++ .interrupt .timer :: cpu 1 ++ startSchedule ++ userCalls 1 7 ++ cpu 1

theorem parent_deleted : ∃ tr σ, (kernel (history fun _ => 0)).Run tr σ ∧
    .sync (.act 1 (.destroyed 1)) ∈ tr ∧ σ.data.1.processID 2 = 2 ∧
    (σ.pc 2).decrements = some 1 ∧ ¬ParentLive tr σ := by
  obtain ⟨tr, σ, hr, _, hp⟩ := System.exists_run_of_exec (Kernel.boot (history fun _ => 0))
    (Kernel.next (history fun _ => 0)) orphanSchedule
    (fun r => decide (KEvent.sync (.act 1 (.destroyed 1)) ∈ r.2 ∧ r.1.data.1.processID 2 = 2 ∧
      2 < r.1.nextTid ∧ (r.1.pc 2).decrements = some 1 ∧ (r.1.pc 2).decrementing = true))
    (by decide +kernel)
  obtain ⟨hd, hpid, ht, hdec, hing⟩ := of_decide_eq_true hp
  have hpid : σ.data.1.processID 2 = 2 := hpid
  refine ⟨tr, σ, hr, hd, hpid, hdec, fun hlive => ?_⟩
  obtain ⟨v, o, p, _, _, _, _, _, _, hnot, huses⟩ := hlive 2 ht (by rw [hpid]; decide) hing
  rw [← huses 1 hdec] at hnot
  exact hnot 1 hd

end Kernel

end Nachos
