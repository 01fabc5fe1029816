import Nachos.Threads.Refinement
import Nachos.Userprog.ProcessSteps

/-!
# The process table

A slot is taken by `Exec` and never given back: the destructor of `PCB` ends in
`Thread::Finish`, which does not return to `PTable::Remove`. So the table only grows, a
process id belongs to one thread for good, and everything a thread has looked up stays
as it was.
-/
namespace Nachos

open Concurrent

variable {initial : ℕ → Int} {a b : State SemId Pc Data} {tr es : List (Event SemId Ev)}
  {t u : Tid} {d d' : Data} {k : Pc}

/-- A `PCB` that is in the table but has no thread yet. -/
def Pc.building : Pc → Option ObjectId
  | .exec (.multexP _ o _) | .exec (.fork _ o _) => some o
  | _ => none

/-- `o` is the `PCB` of process `c`, a child of the process of `t`. -/
def ChildOf (d : Data) (t : Tid) (c : Int) (o : ObjectId) : Prop :=
  d.pcb c = some o ∧ (d.object o).parentID = d.processID t

/-- What a thread at a control point has looked up in the table. -/
def Pc.Looked (d : Data) (t : Tid) : Pc → Prop
  | .exec (.multexP i o _) | .exec (.fork i o _) =>
    i ≠ 0 ∧ (d.object o).thread = none ∧ ChildOf d t i o
  | .join _ .check => True
  | .join c (.wait o) | .join c (.release o _) | .join c (.ret o _) => ChildOf d t c o
  | .join c _ => ∃ o, ChildOf d t c o
  | .exit _ .check => True
  | .exit _ (.release o) | .exit _ (.wait o) =>
    d.processID t ≠ 0 ∧ d.pcb (d.processID t) = some o
  | .exit _ _ => d.processID t ≠ 0
  | _ => True

/-- The invariant of the table. -/
structure TableInv (a : State SemId Pc Data) : Prop where
  slot : ∀ p o, a.data.pcb p = some o → 0 ≤ p ∧ p < psize ∧ o < a.data.nextObject
  unique : ∀ p q o, a.data.pcb p = some o → a.data.pcb q = some o → p = q
  held : ∀ o < a.data.nextObject, ∃ p, a.data.pcb p = some o
  root : a.data.pcb 0 = some 0 ∧ (a.data.object 0).thread = none ∧
    (a.data.object 0).parentID = -1 ∧ a.data.processID 0 = 0
  child : ∀ t < a.nextTid, t ≠ 0 → a.data.processID t ≠ 0 ∧
    ∃ o, a.data.pcb (a.data.processID t) = some o ∧ (a.data.object o).thread = some t
  thread : ∀ o < a.data.nextObject, ∀ t, (a.data.object o).thread = some t →
    t ≠ 0 ∧ t < a.nextTid ∧ a.data.pcb (a.data.processID t) = some o
  looked : ∀ t < a.nextTid, (a.pc t).Looked a.data t
  builder : ∀ t < a.nextTid, ∀ u < a.nextTid, ∀ o, (a.pc t).building = some o →
    (a.pc u).building = some o → t = u

/-- Two states of the data with the same table, up to counters, exit codes and names. -/
structure SameTable (d d' : Data) : Prop where
  pcb : d'.pcb = d.pcb
  nextObject : d'.nextObject = d.nextObject
  processID : d'.processID = d.processID
  thread : ∀ o, (d'.object o).thread = (d.object o).thread
  parentID : ∀ o, (d'.object o).parentID = (d.object o).parentID

theorem SameTable.rfl' : SameTable d d := ⟨rfl, rfl, rfl, fun _ => rfl, fun _ => rfl⟩

/-- Writing to the other fields of a `PCB`. -/
theorem SameTable.setObject {o : ObjectId} {f : PCB → PCB} (ht : ∀ b, (f b).thread = b.thread)
    (hp : ∀ b, (f b).parentID = b.parentID) : SameTable d (d.setObject o f) := by
  refine ⟨rfl, rfl, rfl, fun o' => ?_, fun o' => ?_⟩ <;> by_cases ho : o' = o <;>
    simp [Data.setObject, ho, ht, hp]

/-- What has been looked up survives as long as slots are kept and the objects in them
keep their parent, and their thread while it is being made. -/
theorem Pc.Looked.mono (hk : k.Looked d t)
    (hslot : ∀ p o, d.pcb p = some o → d'.pcb p = some o ∧
      (d'.object o).parentID = (d.object o).parentID)
    (hpid : d'.processID t = d.processID t)
    (hthread : ∀ o, k.building = some o → (d'.object o).thread = (d.object o).thread) :
    k.Looked d' t := by
  have hc : ∀ c o, ChildOf d t c o → ChildOf d' t c o := by
    intro c o ho
    obtain ⟨hp, hpar⟩ := hslot c o ho.1
    exact ⟨hp, by rw [hpar, hpid, ho.2]⟩
  cases k with
  | exec j =>
    cases j with
    | multexP i o n | fork i o n => exact ⟨hk.1, by rw [hthread o rfl, hk.2.1], hc i o hk.2.2⟩
    | _ => trivial
  | join c j =>
    cases j with
    | check => trivial
    | wait o | release o e | ret o e => exact hc c o hk
    | _ =>
      obtain ⟨o, ho⟩ := hk
      exact ⟨o, hc c o ho⟩
  | exit e j =>
    cases j with
    | check => trivial
    | release o | wait o =>
      simp only [Pc.Looked, hpid]
      exact ⟨hk.1, (hslot _ o hk.2).1⟩
    | _ =>
      simp only [Pc.Looked, hpid]
      exact hk
  | _ => trivial

/-- Steps that leave the table alone. -/
theorem TableInv.frame (h : TableInv a) (hd : SameTable a.data b.data)
    (hbt : b.nextTid = a.nextTid) (hbp : ∀ u < a.nextTid, b.pc u = a.pc u ∨
      ((b.pc u).Looked a.data u ∧
        ((b.pc u).building = none ∨ (b.pc u).building = (a.pc u).building))) :
    TableInv b := by
  have hbuild : ∀ u < a.nextTid, ∀ o, (b.pc u).building = some o → (a.pc u).building = some o := by
    intro u hu o ho
    rcases hbp u hu with hp | ⟨_, hp | hp⟩
    · rwa [hp] at ho
    · simp [hp] at ho
    · rwa [hp] at ho
  constructor
  · simpa only [hd.pcb, hd.nextObject] using h.slot
  · simpa only [hd.pcb] using h.unique
  · simpa only [hd.pcb, hd.nextObject] using h.held
  · simpa only [hd.pcb, hd.thread, hd.parentID, hd.processID] using h.root
  · simpa only [hbt, hd.processID, hd.pcb, hd.thread] using h.child
  · simpa only [hbt, hd.processID, hd.pcb, hd.thread, hd.nextObject] using h.thread
  · intro u hu
    rw [hbt] at hu
    have hl : (b.pc u).Looked a.data u := by
      rcases hbp u hu with hp | ⟨hp, _⟩
      · rw [hp]
        exact h.looked u hu
      · exact hp
    exact hl.mono (fun p o ho => ⟨by rw [hd.pcb, ho], hd.parentID o⟩) (by rw [hd.processID])
      fun o _ => hd.thread o
  · intro u hu v hv o ho ho'
    rw [hbt] at hu hv
    exact h.builder u hu v hv o (hbuild u hu o ho) (hbuild v hv o ho')

/-- One thread moves, the table stays. -/
theorem TableInv.goto (h : TableInv a) (hd : SameTable a.data b.data)
    (hbt : b.nextTid = a.nextTid) (hbp : b.pc = Function.update a.pc t k)
    (hk : k.Looked a.data t) (hb : k.building = none ∨ k.building = (a.pc t).building) :
    TableInv b := by
  refine h.frame hd hbt fun u _ => ?_
  rw [hbp]
  by_cases hu : u = t
  · subst hu
    simpa using .inr ⟨hk, hb⟩
  · simp [hu]

/-- The `PCB` a thread is building is in the table, under another process than `0`. -/
theorem TableInv.building (h : TableInv a) (ht : t < a.nextTid) {o : ObjectId}
    (hb : (a.pc t).building = some o) :
    ∃ i, i ≠ 0 ∧ (a.data.object o).thread = none ∧ ChildOf a.data t i o := by
  have hl := h.looked t ht
  generalize a.pc t = pc at hb hl
  unfold Pc.building at hb
  split at hb <;> simp only [Option.some.injEq, reduceCtorEq] at hb
  all_goals
    subst hb
    exact ⟨_, hl⟩

/-- A slot that `GetFreeSlot` returns is one of the table and free. -/
theorem getFreeSlot_spec (h : 0 ≤ d.getFreeSlot) :
    d.getFreeSlot < psize ∧ d.pcb d.getFreeSlot = none := by
  unfold Data.getFreeSlot at h ⊢
  split
  · rename_i i hi
    have h1 := List.mem_of_find?_eq_some hi
    have h2 := List.find?_some hi
    simp only [List.mem_range] at h1
    exact ⟨by omega, by simpa using h2⟩
  · rename_i hi
    simp [hi] at h

/-- `Exec` takes a slot for a new `PCB`. -/
theorem TableInv.execSlot (h : TableInv a) (ht : t < a.nextTid) {name : String} {x n : Int}
    (hi : 0 ≤ a.data.getFreeSlot) :
    TableInv { a.goto t (.exec (.multexP a.data.getFreeSlot a.data.nextObject name)) with
      data := { a.data with
        pcb := Function.update a.data.pcb a.data.getFreeSlot (some a.data.nextObject)
        object := Function.update a.data.object a.data.nextObject
          ⟨a.data.processID t, none, x, n, name⟩
        nextObject := a.data.nextObject + 1 } } := by
  obtain ⟨hlt, hfree⟩ := getFreeSlot_spec hi
  generalize a.data.getFreeSlot = i at *
  have hi0 : i ≠ 0 := by
    rintro rfl
    simp [h.root.1] at hfree
  have hold : ∀ p o, a.data.pcb p = some o → p ≠ i ∧ o ≠ a.data.nextObject := by
    intro p o hp
    refine ⟨?_, (h.slot p o hp).2.2.ne⟩
    rintro rfl
    simp [hfree] at hp
  have hslot : ∀ p o, Function.update a.data.pcb i (some a.data.nextObject) p = some o →
      (p = i ∧ o = a.data.nextObject) ∨ a.data.pcb p = some o := by
    intro p o hp
    by_cases hpi : p = i
    · subst hpi
      simp only [Function.update_self, Option.some.injEq] at hp
      exact .inl ⟨rfl, hp.symm⟩
    · exact .inr (by simpa [hpi] using hp)
  constructor
  · intro p o hp
    rcases hslot p o hp with ⟨rfl, rfl⟩ | hp
    · exact ⟨hi, hlt, Nat.lt_succ_self _⟩
    · obtain ⟨h1, h2, h3⟩ := h.slot p o hp
      exact ⟨h1, h2, Nat.lt_succ_of_lt h3⟩
  · intro p q o hp hq
    rcases hslot p o hp with ⟨hpi, ho⟩ | hp' <;> rcases hslot q o hq with ⟨hqi, ho'⟩ | hq'
    · rw [hpi, hqi]
    · exact absurd ho (hold q o hq').2
    · exact absurd ho' (hold p o hp').2
    · exact h.unique p q o hp' hq'
  · intro o ho
    by_cases hon : o = a.data.nextObject
    · exact ⟨i, by simp [hon]⟩
    · obtain ⟨p, hp⟩ := h.held o (lt_of_le_of_ne (Nat.lt_succ_iff.mp ho) hon)
      exact ⟨p, by simpa [(hold p o hp).1] using hp⟩
  · obtain ⟨h1, h2, h3, h4⟩ := h.root
    have := (hold 0 0 h1).2
    simpa [hi0.symm, this] using ⟨h1, h2, h3, h4⟩
  · intro u hu hu0
    obtain ⟨h1, o, h2, h3⟩ := h.child u hu hu0
    obtain ⟨h4, h5⟩ := hold _ o h2
    exact ⟨h1, o, by simpa [h4] using h2, by simpa [h5] using h3⟩
  · intro o ho u hu
    by_cases hon : o = a.data.nextObject
    · simp [hon] at hu
    · have hlt := lt_of_le_of_ne (Nat.lt_succ_iff.mp ho) hon
      obtain ⟨h1, h2, h3⟩ := h.thread o hlt u (by simpa [hon] using hu)
      exact ⟨h1, h2, by simpa [(hold _ o h3).1] using h3⟩
  · intro u hu
    by_cases hut : u = t
    · subst hut
      simp [Pc.Looked, ChildOf, hi0]
    · have hl : (a.pc u).Looked a.data u := h.looked u hu
      simp only [State.goto_pc, ne_eq, hut, not_false_eq_true, Function.update_of_ne]
      refine hl.mono ?_ rfl ?_
      · intro p o hp
        obtain ⟨h4, h5⟩ := hold p o hp
        exact ⟨by simpa [h4] using hp, by simp [h5]⟩
      · intro o ho
        obtain ⟨j, _, _, hc⟩ := h.building hu ho
        simp [(hold j o hc.1).2]
  · intro u hu v hv o ho ho'
    have hne : ∀ w < a.nextTid, w ≠ t → Pc.building (Function.update a.pc t
        (.exec (.multexP i a.data.nextObject name)) w) = some o → o ≠ a.data.nextObject := by
      intro w hw hwt hb
      obtain ⟨j, _, _, hc⟩ := h.building hw (by simpa [hwt] using hb)
      exact (hold j o hc.1).2
    by_cases hut : u = t <;> by_cases hvt : v = t
    · rw [hut, hvt]
    · have hon : o = a.data.nextObject := by simpa [hut, Pc.building, eq_comm] using ho
      exact absurd hon (hne v hv hvt ho')
    · have hon : o = a.data.nextObject := by simpa [hvt, Pc.building, eq_comm] using ho'
      exact absurd hon (hne u hu hut ho)
    · exact h.builder u hu v hv o (by simpa [hut] using ho) (by simpa [hvt] using ho')

/-- `Fork` gives the new `PCB` its thread, and the thread its process id. -/
theorem TableInv.fork (h : TableInv a) (ht : t < a.nextTid) {i : Int} {o : ObjectId} {name : String}
    (hpc : a.pc t = .exec (.fork i o name)) :
    TableInv { (a.goto a.nextTid (.startProcess2 i)).goto t (.exec (.multexV i o a.nextTid)) with
      nextTid := a.nextTid + 1
      data := { a.data.setObject o fun b =>
          { b with thread := some a.nextTid, parentID := a.data.processID t } with
        processID := Function.update a.data.processID a.nextTid i
        threadName := Function.update a.data.threadName a.nextTid (some name)
        space := Function.update a.data.space a.nextTid none } } := by
  have hl := h.looked t ht
  rw [hpc] at hl
  obtain ⟨hi, hnone, hpcb, hpar⟩ := hl
  have hn : ∀ u < a.nextTid, u ≠ a.nextTid := fun u hu => hu.ne
  have ho0 : o ≠ 0 := by
    rintro rfl
    exact hi (h.unique i 0 0 hpcb h.root.1)
  have hn0 : a.nextTid ≠ 0 := (Nat.zero_lt_of_lt ht).ne'
  -- only the thread field of `o` changes, from null
  have hparent : ∀ o', (Function.update a.data.object o
      { a.data.object o with thread := some a.nextTid, parentID := a.data.processID t } o').parentID =
      (a.data.object o').parentID := by
    intro o'
    by_cases ho : o' = o
    · simp [ho, hpar]
    · simp [ho]
  constructor
  · exact h.slot
  · exact h.unique
  · exact h.held
  · simpa [Data.setObject, ho0.symm, hn0.symm] using h.root
  · intro u hu hu0
    by_cases hun : u = a.nextTid
    · subst hun
      exact ⟨by simpa using hi, o, by simpa [Data.setObject] using hpcb, by simp [Data.setObject]⟩
    · have hlt : u < a.nextTid := lt_of_le_of_ne (Nat.lt_succ_iff.mp hu) hun
      obtain ⟨h1, o', h2, h3⟩ := h.child u hlt hu0
      have ho : o' ≠ o := by
        rintro rfl
        simp [hnone] at h3
      exact ⟨by simpa [hun] using h1, o', by simpa [Data.setObject, hun] using h2,
        by simpa [Data.setObject, ho] using h3⟩
  · intro o' ho' u hu
    by_cases ho : o' = o
    · subst ho
      simp only [Data.setObject, Function.update_self, Option.some.injEq] at hu
      subst hu
      exact ⟨hn0, Nat.lt_succ_self _, by simpa [Data.setObject] using hpcb⟩
    · obtain ⟨h1, h2, h3⟩ := h.thread o' ho' u (by simpa [Data.setObject, ho] using hu)
      exact ⟨h1, Nat.lt_succ_of_lt h2, by simpa [Data.setObject, hn u h2] using h3⟩
  · intro u hu
    by_cases hut : u = t
    · simp [hut, Pc.Looked]
    · by_cases hun : u = a.nextTid
      · simp [hun, (hn t ht).symm, Pc.Looked]
      · have hlt : u < a.nextTid := lt_of_le_of_ne (Nat.lt_succ_iff.mp hu) hun
        simp only [State.goto_pc, ne_eq, hut, hun, not_false_eq_true, Function.update_of_ne]
        refine (h.looked u hlt).mono (fun p o' hp => ⟨hp, hparent o'⟩) (by simp [hun]) ?_
        intro o' hb
        have ho : o' ≠ o := by
          rintro rfl
          exact hut (h.builder u hlt t ht o' hb (by rw [hpc]; rfl))
        simp [Data.setObject, ho]
  · intro u hu v hv o' hb hb'
    have hback : ∀ w < a.nextTid + 1, Pc.building (Function.update (Function.update a.pc a.nextTid
        (.startProcess2 i)) t (.exec (.multexV i o a.nextTid)) w) = some o' →
        w < a.nextTid ∧ (a.pc w).building = some o' := by
      intro w hw hwb
      by_cases hwt : w = t
      · simp [hwt, Pc.building] at hwb
      · by_cases hwn : w = a.nextTid
        · subst hwn
          simp [hwt, Pc.building] at hwb
        · exact ⟨lt_of_le_of_ne (Nat.lt_succ_iff.mp hw) hwn, by simpa [hwt, hwn] using hwb⟩
    obtain ⟨hu', hbu⟩ := hback u hu hb
    obtain ⟨hv', hbv⟩ := hback v hv hb'
    exact h.builder u hu' v hv' o' hbu hbv

/-- A process other than the first has its slot, with its thread. -/
theorem TableInv.process (h : TableInv a) (ht : t < a.nextTid) (h0 : a.data.processID t ≠ 0) :
    ∃ o, a.data.pcb (a.data.processID t) = some o ∧ (a.data.object o).thread = some t := by
  have ht0 : t ≠ 0 := by
    rintro rfl
    exact h0 h.root.2.2.2
  exact (h.child t ht ht0).2

/-- The thread of a process finds itself in the table, and is no longer without a thread. -/
theorem TableInv.self (h : TableInv a) (ht : t < a.nextTid) (h0 : a.data.processID t ≠ 0) {o : ObjectId}
    (ho : a.data.pcb (a.data.processID t) = some o) : (a.data.object o).thread = some t := by
  obtain ⟨o', ho', hth⟩ := h.process ht h0
  rw [ho, Option.some.injEq] at ho'
  rw [ho', hth]

/-- The process of a thread has its slot. -/
theorem TableInv.occupied (h : TableInv a) (ht : t < a.nextTid) :
    ∃ o, a.data.pcb (a.data.processID t) = some o := by
  by_cases h0 : a.data.processID t = 0
  · exact ⟨0, by rw [h0, h.root.1]⟩
  · obtain ⟨o, ho, _⟩ := h.process ht h0
    exact ⟨o, ho⟩

/-- A process has one thread. -/
theorem TableInv.processID_inj (h : TableInv a) (ht : t < a.nextTid) (hu : u < a.nextTid)
    (he : a.data.processID t = a.data.processID u) : t = u := by
  by_cases h0 : a.data.processID t = 0
  · have hzero : ∀ w < a.nextTid, a.data.processID w = 0 → w = 0 := by
      intro w hw hw0
      by_contra hne
      exact (h.child w hw hne).1 hw0
    rw [hzero t ht h0, hzero u hu (he ▸ h0)]
  · obtain ⟨o, ho, hth⟩ := h.process ht h0
    have := h.self hu (he ▸ h0) (he ▸ ho)
    rw [hth, Option.some.injEq] at this
    exact this

/-- A local action changes the table only where `Exec` takes a slot and where a `PCB` is
removed. -/
theorem sameTable_of_localStep {es : List Ev} {pc : Pc} (hl : LocalStep t d pc es k d')
    (hexec : ∀ name, pc ≠ .exec (.check name)) (hremove : ∀ e, pc ≠ .exit e .remove) :
    SameTable d d' := by
  cases hl with
  | execSlot => exact absurd rfl (hexec _)
  | removeClear => exact absurd rfl (hremove _)
  | joinInc | exitSet | exitDec => exact .setObject (fun _ => rfl) fun _ => rfl
  | _ => exact ⟨rfl, rfl, rfl, fun _ => rfl, fun _ => rfl⟩

theorem table_act {es : List Ev} (ht : t < a.nextTid) (hl : LocalStep t a.data (a.pc t) es k d)
    (h : TableInv a) : TableInv { a.goto t k with data := d } := by
  have hlook := h.looked t ht
  generalize hpc : a.pc t = pc at hl hlook
  have hsame := sameTable_of_localStep hl
  cases hl with
  | execSlot x n hi => exact h.execSlot ht hi
  | execFail => exact h.goto .rfl' rfl rfl trivial (.inl rfl)
  | newSpace w n hstart hk =>
    have hstart : (∀ name, pc ≠ .exec (.check name)) ∧ ∀ e, pc ≠ .exit e .remove := by
      rcases hstart with rfl | ⟨_, rfl⟩ <;> simp
    refine h.goto (hsame hstart.1 hstart.2) rfl rfl ?_ ?_ <;>
      rcases hk with rfl | ⟨_, rfl⟩ | rfl <;> simp [Pc.Looked, Pc.building]
  | noProgram hk | callSem hk =>
    refine h.goto (hsame (by simp) (by simp)) rfl rfl ?_ ?_ <;>
      rcases hk with ⟨_, rfl⟩ | ⟨_, rfl⟩ <;> simp [Pc.Looked, Pc.building]
  | user r hk =>
    refine h.goto (hsame (by simp) (by simp)) rfl rfl ?_ ?_ <;> cases hk <;>
      simp [Pc.Looked, Pc.building]
  | halt => exact h.goto .rfl' rfl rfl trivial (.inl rfl)
  | joinPassed h0 h1 ho hpar hp =>
    exact h.goto (hsame (by simp) (by simp)) rfl rfl ⟨_, ho, hpar⟩ (.inl rfl)
  | joinLookup ho | joinRead ho =>
    obtain ⟨o', ho', hpar⟩ := hlook
    rw [ho, Option.some.injEq] at ho'
    subst ho'
    exact h.goto (hsame (by simp) (by simp)) rfl rfl ⟨ho, hpar⟩ (.inl rfl)
  | exitSet h0 => exact h.goto (hsame (by simp) (by simp)) rfl rfl h0 (.inl rfl)
  | joinInc | exitDec => exact h.goto (hsame (by simp) (by simp)) rfl rfl hlook (.inl rfl)
  | exitLookup ho | exitLookupAgain ho =>
    exact h.goto (hsame (by simp) (by simp)) rfl rfl ⟨hlook, ho⟩ (.inl rfl)
  | removeFinish ho hu =>
    refine h.goto .rfl' rfl rfl ?_ ?_ <;> split <;> simp [Pc.Looked, Pc.building]
    exact hlook
  | removeNone => exact h.goto .rfl' rfl rfl trivial (.inl rfl)
  | removeClear ho hu => simp [h.self ht hlook ho] at hu
  | _ => exact h.goto (hsame (by simp) (by simp)) rfl rfl trivial (.inl rfl)

theorem table_step (hs : ProcessStep a es b) (h : TableInv a) : TableInv b := by
  cases hs with
  | @P t s k ht hc hv =>
    have hlook := h.looked t ht
    generalize hpc : a.pc t = pc at hc hlook
    cases hc with
    | execMultex => exact h.goto .rfl' rfl rfl hlook (.inr (by simp [hpc, Pc.building]))
    | joinWait => exact h.goto .rfl' rfl rfl ⟨_, hlook⟩ (.inl rfl)
    | exitWait => exact h.goto .rfl' rfl rfl hlook.1 (.inl rfl)
    | joinInc | exitDec => exact h.goto .rfl' rfl rfl hlook (.inl rfl)
    | _ => exact h.goto .rfl' rfl rfl trivial (.inl rfl)
  | @V t s k ht hc =>
    have hlook := h.looked t ht
    generalize hpc : a.pc t = pc at hc hlook
    cases hc with
    | exitRelease => exact h.goto .rfl' rfl rfl hlook.1 (.inl rfl)
    | joinInc | joinRelease | exitDec => exact h.goto .rfl' rfl rfl hlook (.inl rfl)
    | _ => exact h.goto .rfl' rfl rfl trivial (.inl rfl)
  | handler => exact h.frame .rfl' rfl fun u _ => .inl rfl
  | tick ht hc => exact h.goto .rfl' rfl rfl trivial (.inl rfl)
  | fork ht hc => exact h.fork ht hc
  | act ht hl => exact table_act ht hl h
  | hook =>
    exact h.frame ⟨rfl, rfl, rfl, fun _ => rfl, fun _ => rfl⟩ rfl fun u _ => .inl rfl

theorem table_run (h : (atomic (process initial)).Run tr a) : TableInv a := by
  refine h.invariant (I := fun _ a => TableInv a) ?_ ?_
  · rintro a rfl
    have hslot : ∀ (p : Int) o, (if p = 0 then some (0 : ObjectId) else none) = some o → p = 0 ∧ o = 0 := by
      intro p o hp
      split at hp <;> simp_all
    constructor
    · intro p o hp
      obtain ⟨rfl, rfl⟩ := hslot p o hp
      exact ⟨le_rfl, by decide, Nat.one_pos⟩
    · intro p q o hp hq
      rw [(hslot p o hp).1, (hslot q o hq).1]
    · intro o ho
      have : o = 0 := Nat.lt_one_iff.mp ho
      exact ⟨0, by simp [this, Program.initial, process, initialData]⟩
    · simp [Program.initial, process, initialData]
    · intro t ht ht0
      exact absurd (Nat.lt_one_iff.mp ht) ht0
    · simp [Program.initial, process, initialData]
    · simp [Program.initial, process, Pc.Looked]
    · simp [Program.initial, process, Pc.building]
  · intro tr a es b _ hi hs
    exact table_step (processStep_of_step hs) hi

/-- What the table never gives up: its slots, and in their `PCB`s the parent, the name and
the thread. -/
structure Kept (a b : State SemId Pc Data) : Prop where
  nextTid : a.nextTid ≤ b.nextTid
  nextObject : a.data.nextObject ≤ b.data.nextObject
  slot : ∀ p o, a.data.pcb p = some o → b.data.pcb p = some o
  parentID : ∀ o < a.data.nextObject, (b.data.object o).parentID = (a.data.object o).parentID
  name : ∀ o < a.data.nextObject, (b.data.object o).name = (a.data.object o).name
  thread : ∀ o < a.data.nextObject, ∀ u, (a.data.object o).thread = some u →
    (b.data.object o).thread = some u
  processID : ∀ t < a.nextTid, b.data.processID t = a.data.processID t

theorem Kept.setObject {o : ObjectId} {f : PCB → PCB} (hp : ∀ b, (f b).parentID = b.parentID)
    (hn : ∀ b, (f b).name = b.name) (ht : ∀ b, (f b).thread = b.thread) :
    Kept a { a.goto t k with data := a.data.setObject o f } := by
  refine ⟨le_rfl, le_rfl, fun _ _ hp => hp, fun o' _ => ?_, fun o' _ => ?_, fun o' _ u hu => ?_,
    fun _ _ => rfl⟩ <;> by_cases ho : o' = o
  · simp [Data.setObject, ho, hp]
  · simp [Data.setObject, ho]
  · simp [Data.setObject, ho, hn]
  · simp [Data.setObject, ho]
  · simpa [Data.setObject, ho, ht] using ho ▸ hu
  · simpa [Data.setObject, ho] using hu

theorem kept_of_step (hs : ProcessStep a es b) (h : TableInv a) : Kept a b := by
  cases hs with
  | @fork t i o name ht hc =>
    have hl := h.looked t ht
    rw [hc] at hl
    obtain ⟨_, hnone, _, hpar⟩ := hl
    refine ⟨Nat.le_succ _, le_rfl, fun _ _ hp => hp, fun o' _ => ?_, fun o' _ => ?_,
      fun o' _ u hu => ?_, fun u hu => by simp [hu.ne]⟩ <;> by_cases ho : o' = o
    · simp [Data.setObject, ho, hpar]
    · simp [Data.setObject, ho]
    · simp [Data.setObject, ho]
    · simp [Data.setObject, ho]
    · simp [ho, hnone] at hu
    · simpa [Data.setObject, ho] using hu
  | @act t k d es ht hl =>
    have hlook := h.looked t ht
    generalize a.pc t = pc at hl hlook
    cases hl with
    | execSlot x n hi =>
      have hold : ∀ p o, a.data.pcb p = some o → p ≠ a.data.getFreeSlot := by
        rintro p o hp rfl
        simp [(getFreeSlot_spec hi).2] at hp
      refine ⟨le_rfl, Nat.le_succ _, fun p o hp => by simpa [hold p o hp] using hp, ?_, ?_, ?_,
        fun _ _ => rfl⟩
      · intro o ho
        simp [ho.ne]
      · intro o ho
        simp [ho.ne]
      · intro o ho u hu
        simpa [ho.ne] using hu
    | removeClear ho hu => simp [h.self ht hlook ho] at hu
    | joinInc | exitSet | exitDec => exact .setObject (fun _ => rfl) (fun _ => rfl) fun _ => rfl
    | _ =>
      exact ⟨le_rfl, le_rfl, fun _ _ hp => hp, fun _ _ => rfl, fun _ _ => rfl, fun _ _ _ hu => hu,
        fun _ _ => rfl⟩
  | _ =>
    exact ⟨le_rfl, le_rfl, fun _ _ hp => hp, fun _ _ => rfl, fun _ _ => rfl, fun _ _ _ hu => hu,
      fun _ _ => rfl⟩

/-- The slots that `GetFreeSlot` regards as free. -/
def freeSlots (d : Data) : ℕ := (List.range psize).countP fun i : ℕ => (d.pcb (i : Int)).isNone

theorem getFreeSlot_nonneg (h : 0 < freeSlots d) : 0 ≤ d.getFreeSlot := by
  obtain ⟨i, hi, hn⟩ := List.countP_pos_iff.mp h
  unfold Data.getFreeSlot
  split
  · omega
  · rename_i hf
    exact absurd hn (by simpa using List.find?_eq_none.mp hf i hi)

/-- The slots taken are as many as the `PCB`s ever made. -/
theorem TableInv.freeSlots (h : TableInv a) : freeSlots a.data + a.data.nextObject = psize := by
  have hsplit := List.length_eq_countP_add_countP
    (p := fun i : ℕ => (a.data.pcb (i : Int)).isNone) (l := List.range psize)
  have htaken : (List.range psize).countP (fun i : ℕ => decide ¬(a.data.pcb (i : Int)).isNone) =
      a.data.nextObject := by
    have hcard : ((Finset.range psize).filter fun i : ℕ => (a.data.pcb (i : Int)).isSome).card =
        (Finset.range a.data.nextObject).card := by
      apply Finset.card_nbij fun i : ℕ => (a.data.pcb (i : Int)).getD 0
      · intro i hi
        simp only [Finset.coe_filter, Set.mem_ofPred_eq] at hi
        obtain ⟨o, ho⟩ := Option.isSome_iff_exists.mp hi.2
        simpa [ho] using (h.slot _ o ho).2.2
      · intro i hi j hj hij
        simp only [Finset.coe_filter, Set.mem_ofPred_eq] at hi hj
        obtain ⟨o, ho⟩ := Option.isSome_iff_exists.mp hi.2
        obtain ⟨o', ho'⟩ := Option.isSome_iff_exists.mp hj.2
        simp only [ho, ho', Option.getD_some] at hij
        exact Int.ofNat_inj.mp (h.unique _ _ o ho (hij ▸ ho'))
      · intro o ho
        simp only [Finset.coe_range, Set.mem_Iio] at ho
        obtain ⟨p, hp⟩ := h.held o ho
        obtain ⟨h0, h1, _⟩ := h.slot p o hp
        refine ⟨p.toNat, ?_, ?_⟩
        · simp only [Finset.coe_filter, Finset.mem_range, Set.mem_ofPred_eq, Int.toNat_of_nonneg h0]
          exact ⟨by omega, by simp [hp]⟩
        · simp [Int.toNat_of_nonneg h0, hp]
    rw [Finset.card_range] at hcard
    rw [← hcard, List.countP_eq_length_filter, ← List.toFinset_card_of_nodup]
    · congr 1
      ext i
      simp [Option.isSome_iff_ne_none]
    · exact List.nodup_range.filter _
  rw [List.length_range, htaken] at hsplit
  exact hsplit.symm

section Kernel

variable {σ : Kernel SemId Pc Data} {tr : List (KEvent SemId Ev)}

/-- A process exists from its `PCB` on until its thread has finished. -/
def stillExists (tr : List (KEvent SemId Ev)) (d : Data) (o : ObjectId) : Bool :=
  match (d.object o).thread with
  | some t => !decide (.finish t ∈ tr)
  | none => true

def processes (tr : List (KEvent SemId Ev)) (d : Data) : ℕ :=
  (List.range d.nextObject).countP (stillExists tr d)

/-- A finished process has given its slot back, the free slots are those no process
needs, and `Exec` finds one unless all are needed. -/
structure SlotsReclaimed (tr : List (KEvent SemId Ev)) (σ : Kernel SemId Pc Data) : Prop where
  cleared : ∀ t, .finish t ∈ tr → σ.data.processID t ≠ 0 → σ.data.pcb (σ.data.processID t) = none
  counted : freeSlots σ.data + processes tr σ.data = psize
  available : processes tr σ.data < psize → 0 ≤ σ.data.getFreeSlot

/-- Slots are reclaimed exactly as long as no process but the first has finished. -/
theorem slotsReclaimed_iff (h : (kernel (process initial)).Run tr σ) :
    SlotsReclaimed tr σ ↔ ∀ t, .finish t ∈ tr → σ.data.processID t = 0 := by
  have ht := table_run (atomic_run h)
  have hplace := placement_run h
  constructor
  · intro hrec t hf
    by_contra h0
    have hlt : t < σ.nextTid := by
      by_contra hge
      have := (hplace.finished t).mp hf
      simp [hplace.fresh t (not_lt.mp hge)] at this
    have ht0 : t ≠ 0 := by
      rintro rfl
      exact h0 ht.root.2.2.2
    obtain ⟨_, o, ho, _⟩ := ht.child t hlt ht0
    have ho : σ.data.pcb (σ.data.processID t) = some o := ho
    rw [hrec.cleared t hf h0] at ho
    cases ho
  · intro hnone
    have hall : processes tr σ.data = σ.data.nextObject := by
      rw [processes, List.countP_eq_length.mpr, List.length_range]
      intro o ho
      unfold stillExists
      split
      · rename_i t hth
        obtain ⟨h1, h2, _⟩ := ht.thread o (List.mem_range.mp ho) t hth
        have := (ht.child t h2 h1).1
        simpa using fun hf => this (hnone t hf)
      · rfl
    have hfree : freeSlots σ.data + σ.data.nextObject = psize := ht.freeSlots
    refine ⟨fun t hf h0 => absurd (hnone t hf) h0, by rw [hall, hfree], fun hlt => ?_⟩
    exact getFreeSlot_nonneg (by rw [hall] at hlt; omega)

/-- After an `Exec` two processes exist, and the other eight slots are free. -/
theorem slotsReclaimed_iff_exec : ∃ tr σ, (kernel quiet).Run tr σ ∧ SlotsReclaimed tr σ ∧
    processes tr σ.data = 2 := by
  obtain ⟨tr, σ, hr, _, hp⟩ := System.exists_run_of_exec (Kernel.boot quiet)
    (Kernel.next quiet) (bootSchedule ++ execSchedule)
    (fun r => decide (processes r.2 r.1.data = 2 ∧
      (r.2.all fun | .finish _ => false | _ => true) = true)) (by decide +kernel)
  obtain ⟨h2, hf⟩ := of_decide_eq_true hp
  refine ⟨tr, σ, hr, (slotsReclaimed_iff hr).mpr fun t ht => ?_, h2⟩
  exact absurd (List.all_eq_true.mp hf _ ht) (by simp)

/-- A child that was joined has finished, and its slot is still taken. -/
theorem slot_not_reclaimed : ∃ tr σ, (kernel quiet).Run tr σ ∧ .finish 1 ∈ tr ∧
    σ.data.processID 1 = 1 ∧ .sync (.P 1 (.exitsem 1)) ∈ tr ∧ ¬SlotsReclaimed tr σ := by
  obtain ⟨tr, σ, hr, _, hp⟩ := System.exists_run_of_exec (Kernel.boot quiet)
    (Kernel.next quiet) lifeSchedule
    (fun r => decide (.finish 1 ∈ r.2 ∧ r.1.data.processID 1 = 1 ∧
      KEvent.sync (.P 1 (.exitsem 1)) ∈ r.2 ∧ r.1.data.pcb 1 = some 1)) (by decide +kernel)
  obtain ⟨hf, hpid, hw, hslot⟩ := of_decide_eq_true hp
  have hpid : σ.data.processID 1 = 1 := hpid
  have hslot : σ.data.pcb 1 = some 1 := hslot
  refine ⟨tr, σ, hr, hf, hpid, hw, fun hrec => ?_⟩
  have hcleared := hrec.cleared 1 hf (by rw [hpid]; decide)
  rw [hpid, hslot] at hcleared
  cases hcleared

end Kernel

end Nachos
