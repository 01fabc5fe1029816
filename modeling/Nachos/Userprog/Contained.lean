import Nachos.Userprog.Context
import Nachos.Userprog.Exec

/-!
# An `Exec` that fails

`ExecUpdate` only checks that the file can be opened. Everything else is found out by the
new thread in the constructor of `AddrSpace`, which cannot report a failure: `StartProcess_2`
tests for a null pointer that `new` never returns.
-/
namespace Nachos

open Concurrent

variable {initial : ℕ → Int} {a b : State SemId Pc (Data × List Note)}
  {tr es : List (Event SemId Ev)} {ns : List Note} {t u v : Tid} {d d' : Data} {pc k : Pc}
  {x : SpaceId}

/-- What thread `t` found when it opened its file. -/
def foundBy (t : Tid) (ns : List Note) : List (Bool × NoffHeader) :=
  ns.filterMap fun
    | .found t' opened h => if t' = t then some (opened, h) else none
    | _ => none

/-- The checks that memory is sufficient, by thread `t`. -/
def checkedBy (t : Tid) (ns : List Note) : List (NoffHeader × ℕ) :=
  ns.filterMap fun
    | .checked t' h free => if t' = t then some (h, free) else none
    | _ => none

@[simp] theorem foundBy_nil (t : Tid) : foundBy t [] = [] := rfl
@[simp] theorem checkedBy_nil (t : Tid) : checkedBy t [] = [] := rfl

/-- The thread is past its loading, or stopped. -/
def Pc.loaded : Pc → Bool
  | .startProcess | .startProcess2 _ | .construct .. => false
  | _ => true

/-- How a constructor that returned has ended. -/
inductive LoadOutcome (s : AddrSpace) (x : SpaceId) :
    List (Bool × NoffHeader) → List (NoffHeader × ℕ) → Prop
  /-- The file was gone, and nothing is initialised. -/
  | gone {h : NoffHeader} (hp : s.pageTable ≠ .allocated x) : LoadOutcome s x [(false, h)] []
  | full {h : NoffHeader} {free : ℕ} (hf : free < h.numPages.toNat) (hn : s.numPages = 0) :
      LoadOutcome s x [(true, h)] [(h, free)]
  | built {h : NoffHeader} {free : ℕ} (hm : h.noffMagic = NOFFMAGIC) (hs : h.Loads)
      (hf : h.numPages.toNat ≤ free) (hp : s.pageTable = .allocated x) (hn : s.numPages = h.numPages)
      (hl : s.entries.length = s.numPages.toNat) : LoadOutcome s x [(true, h)] [(h, free)]

/-- Where a thread made by `Exec` is, from its first step on, with what it has found. -/
inductive Loading (d : Data) (t : Tid) :
    List (Bool × NoffHeader) → List (NoffHeader × ℕ) → Pc → Prop
  | new {i : Int} (hx : d.space t = none) : Loading d t [] [] (.startProcess2 i)
  | accepted {x : SpaceId} {h : NoffHeader} {j : AddrSpacePc} (hx : d.space t = none)
      (hm : h.noffMagic = NOFFMAGIC) (hj : j = .P h ∨ j = .check h) :
      Loading d t [(true, h)] [] (.construct x j)
  | full {x : SpaceId} {h : NoffHeader} {free : ℕ} (hx : d.space t = none)
      (hf : free < h.numPages.toNat) (hn : (d.addrSpace x).numPages = 0) :
      Loading d t [(true, h)] [(h, free)] (.construct x .VFull)
  | building {x : SpaceId} {h : NoffHeader} {free : ℕ} {j : AddrSpacePc} (hx : d.space t = none)
      (hm : h.noffMagic = NOFFMAGIC) (hf : h.numPages.toNat ≤ free)
      (hp : (d.addrSpace x).pageTable = .allocated x)
      (hj : (∃ i, j = .page h i) ∨ j = .V h ∨ j = .load h) :
      Loading d t [(true, h)] [(h, free)] (.construct x j)
  | done {x : SpaceId} {fs : List (Bool × NoffHeader)} {cs : List (NoffHeader × ℕ)}
      (hx : d.space t = none) (ho : LoadOutcome (d.addrSpace x) x fs cs) :
      Loading d t fs cs (.construct x .done)
  | aborted {h : NoffHeader} {cs : List (NoffHeader × ℕ)} (hx : d.space t = none)
      (hm : h.noffMagic ≠ NOFFMAGIC ∨ ¬h.Loads) : Loading d t [(true, h)] cs .halted
  | started {x : SpaceId} {fs : List (Bool × NoffHeader)} {cs : List (NoffHeader × ℕ)} {pc : Pc}
      (hx : d.space t = some x) (ho : LoadOutcome (d.addrSpace x) x fs cs) (hpc : pc.loaded = true) :
      Loading d t fs cs pc

section Frame

variable {a b : State SemId Pc Data}

/-- An address space changes only in its constructor. -/
theorem addrSpace_kept (hs : ProcessStep a es b) (hx : x < a.data.nextSpace)
    (hrest : ∀ t < a.nextTid, ∀ j, a.pc t = .construct x j → b.pc t = a.pc t) :
    b.data.addrSpace x = a.data.addrSpace x := by
  cases hs with
  | @act t k d es ht hl =>
    generalize hpc : a.pc t = pc at hl
    -- the thread that acts has moved, so it is not in the constructor of `x`
    have hne : ∀ y j, pc = .construct y j → k ≠ pc → x ≠ y := by
      rintro y j rfl hk rfl
      have := hrest t ht j hpc
      simp only [State.goto_pc, Function.update_self, hpc] at this
      exact hk this
    cases hl with
    | newSpace => simp [Data.setAddrSpace, hx.ne]
    | full | fits | page => simp [Data.setAddrSpace, hne _ _ rfl (by simp)]
    | _ => rfl
  | _ => rfl

/-- A thread gets its address space in a step of its own. -/
theorem space_kept (hs : ProcessStep a es b) (hv : v < a.nextTid) (hpc : b.pc v = a.pc v) :
    b.data.space v = a.data.space v := by
  cases hs with
  | @act t k d es ht hl =>
    generalize hpct : a.pc t = pc at hl
    cases hl with
    | start =>
      have hvt : v ≠ t := by
        rintro rfl
        simp [hpct] at hpc
      simp [hvt]
    | _ => rfl
  | fork ht hc => simp [hv.ne]
  | _ => rfl

end Frame

theorem LoadOutcome.congr {s s' : AddrSpace} {fs : List (Bool × NoffHeader)}
    {cs : List (NoffHeader × ℕ)} (h : LoadOutcome s x fs cs) (hs : s' = s) : LoadOutcome s' x fs cs :=
  hs ▸ h

/-- Where a thread is at rest, its address space stays as it is. -/
theorem Loading.rest {fs : List (Bool × NoffHeader)} {cs : List (NoffHeader × ℕ)}
    (h : Loading a.data.1 v fs cs (a.pc v)) (hs : ProcessStep a.forget es b.forget)
    (hm : MemoryInv tr a.forget) (ho : Owned a.forget) (hv : v < a.nextTid)
    (hpc : b.pc v = a.pc v) : Loading b.data.1 v fs cs (b.pc v) := by
  have hspace : b.data.1.space v = a.data.1.space v := space_kept hs hv hpc
  have hbuild : ∀ x j, a.pc v = .construct x j →
      b.data.1.addrSpace x = a.data.1.addrSpace x := by
    intro x j hj
    refine addrSpace_kept hs (hm.filled v hv x j hj).1 fun t ht j' hj' => ?_
    rw [hm.owner t ht v hv x j' j hj' hj]
    exact hpc
  have hown : ∀ x, a.data.1.space v = some x → b.data.1.addrSpace x = a.data.1.addrSpace x := by
    intro x hx
    exact addrSpace_kept hs (ho.made v x hx) fun t ht j hj => absurd hx (ho.building t ht x j hj v)
  rw [hpc]
  generalize hpcv : a.pc v = pc at h
  cases h with
  | new hx => exact .new (hspace.trans hx)
  | accepted hx hm hj => exact .accepted (hspace.trans hx) hm hj
  | full hx hf hn => exact .full (hspace.trans hx) hf (by rw [hbuild _ _ hpcv, hn])
  | building hx hm hf hp hj =>
    exact .building (hspace.trans hx) hm hf (by rw [hbuild _ _ hpcv, hp]) hj
  | done hx ho => exact .done (hspace.trans hx) (ho.congr (hbuild _ _ hpcv))
  | aborted hx hm => exact .aborted (hspace.trans hx) hm
  | started hx ho hpc => exact .started (hspace.trans hx) (ho.congr (hown _ hx)) hpc

/-- Past its loading a thread neither loads again nor touches its address space. -/
theorem loaded_move {evs : List Ev} (hl : LocalStep v d pc evs k d') (hpc : pc.loaded = true) :
    k.loaded = true ∧ d'.space = d.space ∧ d'.addrSpace = d.addrSpace := by
  cases hl with
  | noProgram | full | fits | page | lastPage | load | loadFails | start => cases hpc
  | newSpace _ _ hstart => rcases hstart with rfl | ⟨_, rfl⟩ <;> cases hpc
  | callSem hk => rcases hk with ⟨_, rfl⟩ | ⟨_, rfl⟩ <;> exact ⟨rfl, rfl, rfl⟩
  | user _ hk => cases hk <;> exact ⟨rfl, rfl, rfl⟩
  | removeFinish => exact ⟨by split <;> rfl, rfl, rfl⟩
  | _ => exact ⟨rfl, rfl, rfl⟩

theorem noteAct_loaded {c : Choice} (hpc : pc.loaded = true) :
    foundBy v (noteAct v pc c d) = [] ∧ checkedBy v (noteAct v pc c d) = [] := by
  unfold noteAct
  split <;> simp_all [Pc.loaded, foundBy, checkedBy]

/-- `new AddrSpace(fileName)` in `StartProcess_2`. -/
theorem loading_newAddrSpace {c : Choice} {evs : List Ev} (hx : d.space v = none)
    (h : newAddrSpace c d = (k, d', evs)) : Loading d' v [(c.opened, c.header)] [] k := by
  simp only [newAddrSpace] at h
  split at h
  · rename_i ho
    simp only [Prod.mk.injEq] at h
    obtain ⟨rfl, rfl, rfl⟩ := h
    rw [show c.opened = false by simpa using ho]
    refine .done (by simpa [Data.setAddrSpace] using hx) ?_
    rw [show ((d.setAddrSpace d.nextSpace ⟨.wild (c.uninit 0), c.uninit 1, []⟩).addrSpace
      d.nextSpace) = ⟨.wild (c.uninit 0), c.uninit 1, []⟩ by simp [Data.setAddrSpace]]
    exact .gone (by simp)
  · rename_i ho
    rw [show c.opened = true by simpa using ho]
    split at h <;> simp only [Prod.mk.injEq] at h <;> obtain ⟨rfl, rfl, rfl⟩ := h
    · exact .accepted (by simpa [Data.setAddrSpace] using hx) ‹_› (.inl rfl)
    · exact .aborted (by simpa [Data.setAddrSpace] using hx) (.inl ‹_›)

/-- The steps of a constructor. -/
theorem loading_construct {j : AddrSpacePc} {c : Choice} {evs : List Ev}
    {f : Choice → Data → Option (Pc × Data × List Ev)} {fs : List (Bool × NoffHeader)}
    {cs : List (NoffHeader × ℕ)} (h : Loading d v fs cs (.construct x j))
    (hfill : j.Filled (d.addrSpace x)) (hc : code v (.construct x j) = .act f)
    (hf : f c d = some (k, d', evs)) :
    Loading d' v fs (cs ++ checkedBy v (noteAct v (.construct x j) c d)) k := by
  have hl := localStep_of_code hc hf
  cases hl with
  | @full _ y hfree =>
    cases h with
    | accepted hx hm hj =>
      simp at hj
      subst hj
      simpa [noteAct, checkedBy] using Loading.full (x := x) (by simpa [Data.setAddrSpace] using hx)
        hfree (by simp [Data.setAddrSpace])
    | building _ _ _ _ hj => simp at hj
    | started _ _ hpc => cases hpc
  | @fits _ y hfree =>
    cases h with
    | accepted hx hm hj =>
      simp at hj
      subst hj
      simpa [noteAct, checkedBy] using Loading.building (x := x)
        (by simpa [Data.setAddrSpace] using hx) hm hfree (by simp [Data.setAddrSpace]) (.inl ⟨0, rfl⟩)
    | building _ _ _ _ hj => simp at hj
    | started _ _ hpc => cases hpc
  | @page _ y i hi =>
    cases h with
    | accepted _ _ hj => simp at hj
    | building hx hm hf hp hj =>
      simp at hj
      subst hj
      simpa [noteAct, checkedBy] using Loading.building (x := x)
        (by simpa [Data.setAddrSpace] using hx) hm hf (by simpa [Data.setAddrSpace] using hp)
        (.inl ⟨i + 1, rfl⟩)
    | started _ _ hpc => cases hpc
  | @lastPage _ y i hi =>
    cases h with
    | accepted _ _ hj => simp at hj
    | building hx hm hf hp hj =>
      simp at hj
      subst hj
      simpa [noteAct, checkedBy] using Loading.building hx hm hf hp (.inr (.inl rfl))
    | started _ _ hpc => cases hpc
  | @load _ y hs =>
    cases h with
    | accepted _ _ hj => simp at hj
    | building hx hm hfree hp hj =>
      simp at hj
      subst hj
      simpa [noteAct, checkedBy] using
        Loading.done hx (.built hm hs hfree hp hfill.2 hfill.1)
    | started _ _ hpc => cases hpc
  | @loadFails _ y hs =>
    cases h with
    | accepted _ _ hj => simp at hj
    | building hx hm hf hp hj =>
      simp at hj
      subst hj
      simpa [noteAct, checkedBy] using Loading.aborted hx (.inr hs)
    | started _ _ hpc => cases hpc
  | start =>
    cases h with
    | accepted _ _ hj => simp at hj
    | building _ _ _ _ hj => simp at hj
    | done hx ho =>
      rw [show noteAct v (.construct x .done) c d = [] from rfl, checkedBy, List.filterMap_nil,
        List.append_nil]
      exact .started (Function.update_self ..) ho rfl
    | started _ _ hpc => cases hpc
  | halt hpc => exact absurd rfl (hpc _ _)
  | newSpace _ _ hpc => simp at hpc

/-- A step of a thread that is past its loading. -/
theorem Loading.move {fs : List (Bool × NoffHeader)} {cs : List (NoffHeader × ℕ)}
    (h : Loading d v fs cs pc) (hpc : pc.loaded = true) (hne : pc ≠ .halted)
    (hk : k.loaded = true) (hspace : d'.space v = d.space v) (haddr : d'.addrSpace = d.addrSpace) :
    Loading d' v fs cs k := by
  cases h with
  | started hx ho => exact .started (hspace.trans hx) (ho.congr (by rw [haddr])) hk
  | aborted => exact absurd rfl hne
  | _ => cases hpc

theorem Loading.loaded_act {fs : List (Bool × NoffHeader)} {cs : List (NoffHeader × ℕ)}
    {f : Choice → Data → Option (Pc × Data × List Ev)} {c : Choice} {evs : List Ev}
    (h : Loading d v fs cs pc) (hc : code v pc = .act f) (hf : f c d = some (k, d', evs))
    (hpc : pc.loaded = true) (hne : pc ≠ .halted) :
    Loading d' v (fs ++ foundBy v (noteAct v pc c d)) (cs ++ checkedBy v (noteAct v pc c d)) k := by
  obtain ⟨hfound, hchecked⟩ := noteAct_loaded (v := v) (d := d) (c := c) hpc
  obtain ⟨hk, hspace, haddr⟩ := loaded_move (localStep_of_code hc hf) hpc
  rw [hfound, hchecked, List.append_nil, List.append_nil]
  exact h.move hpc hne hk (by rw [hspace]) haddr

/-- A step of the thread's own. -/
theorem Loading.own {fs : List (Bool × NoffHeader)} {cs : List (NoffHeader × ℕ)}
    (h : Loading d v fs cs pc) (hm : NotedMove d d' v ns pc k)
    (hfill : ∀ x j, pc = .construct x j → j.Filled (d.addrSpace x))
    (hslot : ∀ i, pc = .startProcess2 i → d.pcb i ≠ none) :
    Loading d' v (fs ++ foundBy v ns) (cs ++ checkedBy v ns) k := by
  cases hm with
  | P hc hd =>
    subst hd
    simp only [foundBy_nil, checkedBy_nil, List.append_nil]
    cases hc with
    | construct =>
      cases h with
      | accepted hx hm hj =>
        simp at hj
        subst hj
        exact .accepted hx hm (.inr rfl)
      | building _ _ _ _ hj => simp at hj
      | started _ _ hpc => cases hpc
    | _ => exact h.move rfl (by simp) rfl rfl rfl
  | V hc hd =>
    subst hd
    simp only [foundBy_nil, checkedBy_nil, List.append_nil]
    cases hc with
    | constructFull =>
      cases h with
      | accepted _ _ hj => simp at hj
      | full hx hf hn => exact .done hx (.full hf hn)
      | building _ _ _ _ hj => simp at hj
      | started _ _ hpc => cases hpc
    | construct =>
      cases h with
      | accepted _ _ hj => simp at hj
      | building hx hm hf hp hj =>
        simp at hj
        subst hj
        exact .building hx hm hf hp (.inr (.inr rfl))
      | started _ _ hpc => cases hpc
    | _ => exact h.move rfl (by simp) rfl rfl rfl
  | tick hd =>
    subst hd
    simpa using h.move rfl (by simp) rfl rfl rfl
  | fork _ _ hspace haddr =>
    simpa [foundBy, checkedBy] using h.move rfl (by simp) rfl hspace haddr
  | @act f c es pc k hc hf =>
    cases pc with
    | construct x j =>
      have hfound : foundBy v (noteAct v (.construct x j) c d) = [] := by
        cases j <;> simp [noteAct, foundBy]
      rw [hfound, List.append_nil]
      exact loading_construct h (hfill x j rfl) hc hf
    | startProcess2 i =>
      cases h with
      | new hx =>
        simp only [code, Instr.act.injEq] at hc
        subst hc
        simp only at hf
        split at hf
        · exact absurd ‹_› (hslot i rfl)
        · simpa [noteAct, foundBy, checkedBy] using
            loading_newAddrSpace hx (Option.some.inj hf)
      | started _ _ hpc => cases hpc
    | startProcess =>
      cases h with
      | started _ _ hpc => cases hpc
    | halted => simp [code] at hc
    | _ => exact h.loaded_act hc hf rfl (by simp)

section Kernel

variable {σ : Kernel SemId Pc (Data × List Note)} {tr : List (KEvent SemId Ev)}

end Kernel

end Nachos
