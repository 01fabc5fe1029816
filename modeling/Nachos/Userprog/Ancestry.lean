import Nachos.Userprog.ProcessTable

/-!
# Parents and children

The `parentID` of a process is the slot of the process that executed it. Slots are not
taken again, so a `PCB` is younger than the one its `parentID` leads to.
-/
namespace Nachos

open Concurrent

variable {initial : ℕ → Int} {a b : State SemId Pc Data} {tr es : List (Event SemId Ev)}
  {t : Tid} {d : Data} {o : ObjectId} {p q : Int}

/-- `pcb[q]->parentID` is `p`, for two occupied slots. -/
def IsChild (d : Data) (q p : Int) : Prop :=
  ∃ o o', d.pcb q = some o ∧ d.pcb p = some o' ∧ (d.object o).parentID = p

/-- Every `PCB` but that of process `0` has an older one as its parent's. -/
def Ancestry (d : Data) : Prop :=
  ∀ o < d.nextObject, o ≠ 0 → ∃ o', d.pcb (d.object o).parentID = some o' ∧ o' < o

/-- A `PCB` that was not there before is that of a child of the acting thread. -/
theorem nextObject_of_step (hs : ProcessStep a es b) (ho : o < b.data.nextObject) :
    o < a.data.nextObject ∨ (o = a.data.nextObject ∧
      ∃ t < a.nextTid, (b.data.object o).parentID = a.data.processID t) := by
  cases hs with
  | @act t k d es ht hl =>
    generalize a.pc t = pc at hl
    cases hl with
    | execSlot x n hi =>
      rcases Nat.lt_succ_iff_lt_or_eq.mp ho with ho | rfl
      · exact .inl ho
      · exact .inr ⟨rfl, t, ht, by simp⟩
    | _ => exact .inl ho
  | _ => exact .inl ho

theorem ancestry_step (hs : ProcessStep a es b) (ht : TableInv a) (h : Ancestry a.data) :
    Ancestry b.data := by
  have hk := kept_of_step hs ht
  intro o ho h0
  rcases nextObject_of_step hs ho with ho | ⟨rfl, t, htid, hpar⟩
  · obtain ⟨o', ho', hlt⟩ := h o ho h0
    rw [hk.parentID o ho]
    exact ⟨o', hk.slot _ _ ho', hlt⟩
  · obtain ⟨o', ho'⟩ := ht.occupied htid
    rw [hpar]
    exact ⟨o', hk.slot _ _ ho', (ht.slot _ o' ho').2.2⟩

theorem ancestry_run (h : (atomic (process initial)).Run tr a) : Ancestry a.data := by
  refine h.invariant (I := fun _ a => Ancestry a.data) ?_ ?_
  · rintro a rfl o ho h0
    exact absurd (Nat.lt_one_iff.mp ho) h0
  · intro tr a es b hr hi hs
    exact ancestry_step (processStep_of_step hs) (table_run hr) hi

/-- Going to the parent goes to an older `PCB`. -/
theorem IsChild.older (h : IsChild d q p) (ht : TableInv a) (hd : a.data = d) (ha : Ancestry d) :
    (d.pcb p).getD 0 < (d.pcb q).getD 0 := by
  subst hd
  obtain ⟨o, o', ho, ho', hpar⟩ := h
  have h0 : o ≠ 0 := by
    rintro rfl
    rw [ht.root.2.2.1] at hpar
    rw [← hpar] at ho'
    exact absurd (ht.slot _ _ ho').1 (by decide)
  obtain ⟨o'', hp, hlt⟩ := ha o (ht.slot q o ho).2.2 h0
  rw [hpar, ho', Option.some.injEq] at hp
  simpa [ho, ho', hp] using hlt

theorem ancestors_older (ht : TableInv a) (ha : Ancestry a.data)
    (h : Relation.TransGen (IsChild a.data) q p) :
    (a.data.pcb p).getD 0 < (a.data.pcb q).getD 0 := by
  induction h with
  | single hc => exact hc.older ht rfl ha
  | tail _ hc ih => exact (hc.older ht rfl ha).trans ih

/-- Every occupied slot comes down to slot `0` by going to parents. -/
theorem ancestors_root (ht : TableInv a) (ha : Ancestry a.data) (hq : a.data.pcb q = some o) :
    Relation.ReflTransGen (IsChild a.data) q 0 := by
  induction o using Nat.strong_induction_on generalizing q with
  | _ o ih =>
    by_cases h0 : o = 0
    · subst h0
      rw [ht.unique q 0 0 hq ht.root.1]
    · obtain ⟨o', hp, hlt⟩ := ha o (ht.slot q o hq).2.2 h0
      exact .head ⟨o, o', hq, hp, rfl⟩ (ih o' hlt hp)

section Kernel

variable {σ : Kernel SemId Pc Data} {tr : List (KEvent SemId Ev)}

/-- A thread of process `p` is asleep in the `JoinWait` of process `q`. -/
def BlockedOn (σ : Kernel SemId Pc Data) (p q : Int) : Prop :=
  ∃ t o, t ∈ (σ.sem (.joinsem o)).queue ∧ σ.data.processID t = p ∧ σ.data.pcb q = some o

/-- A process waits only for its children. -/
theorem isChild_of_blockedOn (h : (kernel (process initial)).Run tr σ) (hb : BlockedOn σ p q) :
    IsChild σ.data q p := by
  obtain ⟨t, o, hq, rfl, ho⟩ := hb
  have ht := table_run (atomic_run h)
  obtain ⟨k, hc⟩ := code_of_queued h hq
  have hlt : t < σ.nextTid := ((placement_run h).queued _ t hq).1
  have hl : (σ.pc t).Looked σ.data t := ht.looked t hlt
  obtain ⟨o', ho'⟩ : ∃ o', σ.data.pcb (σ.data.processID t) = some o' := ht.occupied hlt
  have hcalls := callsP_of_code hc
  generalize σ.pc t = pc at hcalls hl
  cases hcalls with
  | joinWait =>
    obtain ⟨hc, hpar⟩ := hl
    exact ⟨o, o', ho, ho', hpar⟩

/-- The processes are a forest rooted at process `0`, and no processes wait for one another
in a circle. -/
theorem join_acyclic (h : (kernel (process initial)).Run tr σ) :
    (∀ q, ¬Relation.TransGen (IsChild σ.data) q q) ∧
    (∀ q, σ.data.pcb q ≠ none → Relation.ReflTransGen (IsChild σ.data) q 0) ∧
    ∀ p, ¬Relation.TransGen (BlockedOn σ) p p := by
  have hr := atomic_run h
  have ht := table_run hr
  have ha := ancestry_run hr
  have hacyclic : ∀ q, ¬Relation.TransGen (IsChild σ.data) q q :=
    fun q hc => lt_irrefl _ (ancestors_older ht ha hc)
  refine ⟨hacyclic, fun q hq => ?_, fun p hb => ?_⟩
  · obtain ⟨o, ho⟩ := Option.ne_none_iff_exists'.mp hq
    exact ancestors_root ht ha ho
  · refine hacyclic p (Relation.transGen_swap.mp ?_)
    exact Relation.TransGen.mono (fun _ _ hb => isChild_of_blockedOn h hb) p p hb

/-- The parent sleeps in its `Join` of the child, which is blocked on nobody. -/
theorem join_acyclic_parent_child : ∃ tr σ, (kernel quiet).Run tr σ ∧ BlockedOn σ 0 1 ∧
    IsChild σ.data 1 0 ∧ ¬Relation.TransGen (BlockedOn σ) 0 0 := by
  obtain ⟨tr, σ, hr, _, hp⟩ := System.exists_run_of_exec (Kernel.boot quiet)
    (Kernel.next quiet) (bootSchedule ++ execSchedule ++ joinSchedule)
    (fun r => decide (0 ∈ (r.1.sem (.joinsem 1)).queue ∧ r.1.data.processID 0 = 0 ∧
      r.1.data.pcb 1 = some 1)) (by decide +kernel)
  obtain ⟨hq, hpid, hslot⟩ := of_decide_eq_true hp
  have hb : BlockedOn σ 0 1 := ⟨0, 1, hq, hpid, hslot⟩
  exact ⟨tr, σ, hr, hb, isChild_of_blockedOn hr hb, (join_acyclic hr).2.2 0⟩

end Kernel

end Nachos
