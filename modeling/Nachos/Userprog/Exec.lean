import Nachos.Userprog.History

/-!
# The identity of a process

`ExecUpdate` chooses a slot, sets up a `PCB` and forks a thread; the thread looks its file
name up later, by the slot. Slots are not taken again, so it finds what was put there for
it, in every interleaving.
-/
namespace Nachos

open Concurrent

variable {initial : ℕ → Int} {a b : State SemId Pc (Data × List Note)}
  {tr es : List (Event SemId Ev)} {ns ns' : List Note} {t u v : Tid} {d d' : Data} {pc k : Pc}
  {id : Int} {name : String}

/-- A call of `ExecUpdate(name)` by `t` has made process `id`, with the thread `u`. -/
structure Execed (d : Data) (ns : List Note) (t : Tid) (name : String) (id : Int) (u : Tid) : Prop where
  range : 1 ≤ id ∧ id < psize
  forked : .forked t u ∈ ns
  processID : d.processID u = id
  pcb : ∃ o, d.pcb id = some o ∧ (d.object o).thread = some u ∧
    (d.object o).parentID = d.processID t ∧ (d.object o).name = name

/-- It stays so. -/
theorem Execed.kept (h : Execed a.data.1 ns t name id u) (ht : t < a.nextTid)
    (hi : TableInv a.forget) (hk : Kept a.forget b.forget) (ns' : List Note) :
    Execed b.data.1 (ns ++ ns') t name id u := by
  obtain ⟨o, ho, hth, hpar, hname⟩ := h.pcb
  have hlt := (hi.slot id o ho).2.2
  have hu := (hi.thread o hlt u hth).2.1
  exact
    { range := h.range
      forked := List.mem_append_left ns' h.forked
      processID := (hk.processID u hu).trans h.processID
      pcb := ⟨o, hk.slot id o ho, hk.thread o hlt u hth,
        (hk.parentID o hlt).trans (hpar.trans (hk.processID t ht).symm),
        (hk.name o hlt).trans hname⟩ }

/-- The process a call of `ExecUpdate` is making, from the moment it has a slot. -/
def Pc.execId : Pc → Option Int
  | .exec (.multexP i _ _) | .exec (.fork i _ _) | .exec (.multexV i _ _)
  | .exec (.V i (some _)) | .exec (.ret i (some _)) => some i
  | _ => none

/-- What a call of `ExecUpdate` has come to. -/
def Pc.Execing (d : Data) (ns : List Note) (t : Tid) : Pc → Prop
  | .exec (.multexP _ o name) | .exec (.fork _ o name) =>
    lastCalled t ns = some name ∧ (d.object o).name = name
  | .exec (.multexV i _ u) | .exec (.V i (some u)) | .exec (.ret i (some u)) =>
    ∃ name, lastCalled t ns = some name ∧ Execed d ns t name i u
  | .exec (.V i none) | .exec (.ret i none) => i = -1
  | _ => True

theorem Pc.Execing.mono (h : pc.Execing a.data.1 ns t) (ht : t < a.nextTid)
    (hi : TableInv a.forget) (hl : pc.Looked a.data.1 t) (hk : Kept a.forget b.forget)
    (hc : lastCalled t (ns ++ ns') = lastCalled t ns) : pc.Execing b.data.1 (ns ++ ns') t := by
  have hname : ∀ i o n, a.data.1.pcb i = some o → (a.data.1.object o).name = n →
      (b.data.1.object o).name = n := by
    intro i o n ho hn
    exact (hk.name o (hi.slot i o ho).2.2).trans hn
  cases pc with
  | exec j =>
    cases j with
    | multexP i o n | fork i o n => exact ⟨hc.trans h.1, hname i o n hl.2.2.1 h.2⟩
    | multexV i o u =>
      obtain ⟨n, hn, he⟩ := h
      exact ⟨n, hc.trans hn, he.kept ht hi hk _⟩
    | V i u | ret i u =>
      cases u with
      | none => exact h
      | some u =>
        obtain ⟨n, hn, he⟩ := h
        exact ⟨n, hc.trans hn, he.kept ht hi hk _⟩
    | _ => trivial
  | _ => trivial

/-- The invariant. -/
structure ExecInv (a : State SemId Pc (Data × List Note)) : Prop where
  execing : ∀ t < a.nextTid, (a.pc t).Execing a.data.1 a.data.2 t
  fresh : ∀ t < a.nextTid, ∀ i, (a.pc t).execId = some i → ∀ t', .returned t' i ∉ a.data.2
  starting : ∀ t < a.nextTid, ∀ i, a.pc t = .startProcess2 i → a.data.1.processID t = i
  loads : ∀ t i n, .loads t i n ∈ a.data.2 →
    t < a.nextTid ∧ a.data.1.processID t = i ∧ n = a.data.1.getFileName i
  returned : ∀ l₁ t i l₂, a.data.2 = l₁ ++ .returned t i :: l₂ → i ≠ -1 → t < a.nextTid ∧
    (∃ name u, lastCalled t l₁ = some name ∧ Execed a.data.1 l₁ t name i u) ∧
    ∀ t', .returned t' i ∉ l₁

/-- The process under construction is a child of the caller's. -/
theorem Pc.Execing.childOf (he : pc.Execing d ns t) (hl : pc.Looked d t)
    (hid : pc.execId = some id) : ∃ o, ChildOf d t id o := by
  unfold Pc.execId at hid
  split at hid <;> simp only [Option.some.injEq, reduceCtorEq] at hid <;> subst hid
  · exact ⟨_, hl.2.2⟩
  · exact ⟨_, hl.2.2⟩
  all_goals
    obtain ⟨_, _, he⟩ := he
    obtain ⟨o, ho, _, hpar, _⟩ := he.pcb
    exact ⟨o, ho, hpar⟩

/-- No two threads are making the same process. -/
theorem ExecInv.maker_unique (h : ExecInv a) (hi : TableInv a.forget) (ht : t < a.nextTid)
    (hv : v < a.nextTid) (hid : (a.pc t).execId = some id) (hid' : (a.pc v).execId = some id) :
    t = v := by
  obtain ⟨o, ho, hpar⟩ := (h.execing t ht).childOf (hi.looked t ht) hid
  obtain ⟨o', ho', hpar'⟩ := (h.execing v hv).childOf (hi.looked v hv) hid'
  rw [ho, Option.some.injEq] at ho'
  subst ho'
  exact hi.processID_inj ht hv (hpar.symm.trans hpar')

/-- `ExecUpdate` returns from its last control point. -/
theorem ret_of_mem (hm : ∀ v, NotedMoved a ns b v) (hn : .returned t id ∈ ns) :
    t < a.nextTid ∧ ns = [.returned t id] ∧ ∃ u, a.pc t = .exec (.ret id u) := by
  obtain ⟨ht, hm⟩ := own_of_mem hm hn
  simp only [Note.thread] at ht hm
  generalize a.pc t = pc, b.pc t = k at hm
  cases hm with
  | P hc | V hc => simp at hn
  | tick => simp at hn
  | fork => simp at hn
  | act hc hf =>
    unfold noteAct at hn ⊢
    split at hn <;> simp at hn
    subst hn
    exact ⟨ht, rfl, _, rfl⟩

/-- A thread's own step, but for the fork and the choice of a slot, keeps what it knows. -/
theorem execing_own (hm : NotedMove a.data.1 b.data.1 t ns' (a.pc t) k)
    (ht : t < a.nextTid) (hi : TableInv a.forget) (hk : Kept a.forget b.forget)
    (h : (a.pc t).Execing a.data.1 ns t) : k.Execing b.data.1 (ns ++ ns') t := by
  have hl : (a.pc t).Looked a.data.1 t := hi.looked t ht
  generalize hpc : a.pc t = pc at hm hl h
  have hmono : lastCalled t (ns ++ []) = lastCalled t ns := by rw [List.append_nil]
  cases hm with
  | P hc =>
    have hm := h.mono ht hi hl hk hmono
    cases hc <;> exact hm
  | V hc =>
    have hm := h.mono ht hi hl hk hmono
    cases hc with
    | @exec i u => cases u <;> exact hm
    | execMultex => exact hm
    | _ => trivial
  | tick => trivial
  | @fork i o u n hpid hth =>
    obtain ⟨hn, hname⟩ := h
    obtain ⟨hi0, _, ho, hpar⟩ := hl
    obtain ⟨h0, h1, hlt⟩ := hi.slot i o ho
    refine ⟨n, by rw [lastCalled_append, hn]; rfl, ?_⟩
    exact
      { range := ⟨by omega, h1⟩
        forked := by simp
        processID := hpid
        pcb := ⟨o, hk.slot i o ho, hth,
          (hk.parentID o hlt).trans (hpar.trans (hk.processID t ht).symm), (hk.name o hlt).trans hname⟩ }
  | @act f c es _ _ hc hf =>
    have hls := localStep_of_code hc hf
    generalize hd : b.data.1 = d' at hls
    cases hls with
    | execSlot x n hslot => exact ⟨by rw [noteAct, lastCalled_append]; simp [lastCalled], by simp⟩
    | execFail => rfl
    | newSpace _ _ _ hk => rcases hk with rfl | ⟨_, rfl⟩ | rfl <;> trivial
    | noProgram hk | callSem hk => rcases hk with ⟨_, rfl⟩ | ⟨_, rfl⟩ <;> trivial
    | user _ hk => cases hk <;> trivial
    | removeFinish => split <;> trivial
    | _ => trivial

/-- The process being made is the same one, or has just got a slot that was free. -/
theorem execId_own (hm : NotedMove a.data.1 b.data.1 t ns (a.pc t) k) (hid : k.execId = some id) :
    (a.pc t).execId = some id ∨ a.data.1.pcb id = none := by
  generalize a.pc t = pc at hm
  cases hm with
  | P hc =>
    cases hc with
    | execMultex => exact .inl hid
    | _ => cases hid
  | V hc =>
    cases hc with
    | @exec i u => cases u <;> exact .inl hid
    | execMultex => exact .inl hid
    | _ => cases hid
  | tick => cases hid
  | fork => exact .inl hid
  | @act f c es _ _ hc hf =>
    have hls := localStep_of_code hc hf
    generalize b.data.1 = d' at hls
    cases hls with
    | execSlot x n hslot =>
      cases hid
      exact .inr (getFreeSlot_spec hslot).2
    | newSpace _ _ _ hk => rcases hk with rfl | ⟨_, rfl⟩ | rfl <;> cases hid
    | noProgram hk | callSem hk => rcases hk with ⟨_, rfl⟩ | ⟨_, rfl⟩ <;> cases hid
    | user _ hk => cases hk <;> cases hid
    | removeFinish => split at hid <;> cases hid
    | _ => cases hid

theorem sysret_of_ret {u : Option Tid} (hm : NotedMove d d' t ns (.exec (.ret id u)) k) :
    k = .sysret id := by
  generalize hpc : Pc.exec (.ret id u) = pc at hm
  cases hm with
  | P hc | V hc => subst hpc; cases hc
  | tick | fork => cases hpc
  | act hc hf =>
    subst hpc
    simp only [code, execCode, Instr.act.injEq] at hc
    subst hc
    simp only [Option.some.injEq, Prod.mk.injEq] at hf
    exact hf.1.symm

/-- What was returned is in the table. -/
theorem ExecInv.returned_occupied (h : ExecInv a) (hr : .returned t id ∈ a.data.2) (hid : id ≠ -1) :
    a.data.1.pcb id ≠ none := by
  obtain ⟨l₁, l₂, hsplit⟩ := List.append_of_mem hr
  obtain ⟨_, ⟨name, u, _, he⟩, _⟩ := h.returned l₁ t id l₂ hsplit hid
  obtain ⟨o, ho, _⟩ := he.pcb
  simp [ho]

/-- A process under construction was not returned before, nor by this step of another. -/
theorem ExecInv.step_fresh (h : ExecInv a) (hi : TableInv a.forget) (hi' : TableInv b.forget)
    (hns : b.data.2 = a.data.2 ++ ns) (hm : ∀ v, NotedMoved a ns b v) (ht : t < b.nextTid)
    (hid : (b.pc t).execId = some id) (hc : ∃ o, ChildOf b.data.1 t id o) :
    .returned v id ∉ b.data.2 := by
  obtain ⟨o, ho, _⟩ := hc
  have h0 : id ≠ -1 := by
    have := (hi'.slot id o ho).1
    omega
  rw [hns, List.mem_append, not_or]
  cases hm t with
  | rest hv hpc hnt =>
    rw [hpc] at hid
    refine ⟨h.fresh t (hv ht) id hid v, fun hmem => ?_⟩
    obtain ⟨hvt, _, u, hret⟩ := ret_of_mem hm hmem
    have hid' : (a.pc v).execId = some id := by
      have he := h.execing v hvt
      rw [hret] at he ⊢
      cases u with
      | none => exact absurd he h0
      | some u => rfl
    exact hnt _ hmem (h.maker_unique hi hvt (hv ht) hid' hid)
  | new hv _ hpc => simp [hpc, Pc.execId] at hid
  | own hv hmt =>
    constructor
    · intro hmem
      rcases execId_own hmt hid with hid' | hfree
      · exact h.fresh t hv id hid' v hmem
      · exact h.returned_occupied hmem h0 hfree
    · intro hmem
      obtain ⟨_, _, u, hret⟩ := ret_of_mem hm hmem
      obtain rfl : v = t := hmt.thread _ hmem
      rw [hret] at hmt
      exact absurd hid (by rw [sysret_of_ret hmt]; simp [Pc.execId])

theorem ExecInv.step_loads (h : ExecInv a) (hi : TableInv a.forget) (hk : Kept a.forget b.forget)
    (hns : b.data.2 = a.data.2 ++ ns) (hm : ∀ v, NotedMoved a ns b v) {n : Option String}
    (hn : .loads t id n ∈ b.data.2) :
    t < b.nextTid ∧ b.data.1.processID t = id ∧ n = b.data.1.getFileName id := by
  -- a name that is there stays
  have hname : ∀ t < a.nextTid, a.data.1.processID t = id →
      b.data.1.getFileName id = a.data.1.getFileName id := by
    rintro t ht rfl
    obtain ⟨o, ho⟩ : ∃ o, a.data.1.pcb (a.data.1.processID t) = some o := hi.occupied ht
    have ho' : b.data.1.pcb (a.data.1.processID t) = some o := hk.slot _ o ho
    have hn : (b.data.1.object o).name = (a.data.1.object o).name := hk.name o (hi.slot _ o ho).2.2
    simp [Data.getFileName, ho, ho', hn]
  rw [hns, List.mem_append] at hn
  rcases hn with hn | hn
  · obtain ⟨ht, hpid, rfl⟩ := h.loads t id n hn
    exact ⟨lt_of_lt_of_le ht hk.nextTid, (hk.processID t ht).trans hpid, (hname t ht hpid).symm⟩
  · obtain ⟨ht, hmt⟩ := own_of_mem hm hn
    simp only [Note.thread] at ht hmt
    generalize hpc : a.pc t = pc, b.pc t = k at hmt
    cases hmt with
    | P | V | tick | fork => simp at hn
    | act hc hf =>
      unfold noteAct at hn
      split at hn <;> simp at hn
      obtain ⟨rfl, rfl⟩ := hn
      have hpid := h.starting t ht _ hpc
      exact ⟨lt_of_lt_of_le ht hk.nextTid, (hk.processID t ht).trans hpid, (hname t ht hpid).symm⟩

theorem ExecInv.step_returned (h : ExecInv a) (hi : TableInv a.forget) (hk : Kept a.forget b.forget)
    (hns : b.data.2 = a.data.2 ++ ns) (hm : ∀ v, NotedMoved a ns b v) {l₁ l₂ : List Note}
    (hsplit : b.data.2 = l₁ ++ .returned t id :: l₂) (h0 : id ≠ -1) : t < b.nextTid ∧
      (∃ name u, lastCalled t l₁ = some name ∧ Execed b.data.1 l₁ t name id u) ∧
      ∀ t', .returned t' id ∉ l₁ := by
  rw [hns] at hsplit
  rcases System.split_append hsplit with ⟨l, hl, _⟩ | ⟨l, hl₁, hl₂⟩
  · obtain ⟨ht, ⟨name, u, hname, he⟩, hfirst⟩ := h.returned l₁ t id l hl h0
    have hkept := he.kept ht hi hk []
    rw [List.append_nil] at hkept
    exact ⟨lt_of_lt_of_le ht hk.nextTid, ⟨name, u, hname, hkept⟩, hfirst⟩
  · -- the note is new, and the only one
    obtain ⟨ht, hone, u, hret⟩ := ret_of_mem hm (by simp [hl₂] : .returned t id ∈ ns)
    obtain rfl : l = [] := by
      rw [hone] at hl₂
      cases l with
      | nil => rfl
      | cons x l => simp at hl₂
    rw [List.append_nil] at hl₁
    subst hl₁
    have he := h.execing t ht
    rw [hret] at he
    cases u with
    | none => exact absurd he h0
    | some u =>
      obtain ⟨name, hname, he⟩ := he
      have hkept := he.kept ht hi hk []
      rw [List.append_nil] at hkept
      exact ⟨lt_of_lt_of_le ht hk.nextTid, ⟨name, u, hname, hkept⟩,
        h.fresh t ht id (by rw [hret]; rfl)⟩

/-- Nothing starts `StartProcess_2` but a fork. -/
theorem startProcess2_of_moved (hm : NotedMoved a ns b t) (ht : t < b.nextTid)
    (hpc : b.pc t = .startProcess2 id) :
    (t < a.nextTid ∧ a.pc t = .startProcess2 id) ∨ b.data.1.processID t = id := by
  cases hm with
  | rest hv h => exact .inl ⟨hv ht, h ▸ hpc⟩
  | new _ _ h _ hpid =>
    rw [h] at hpc
    cases hpc
    exact .inr hpid
  | own _ hm =>
    obtain ⟨es, hm⟩ := hm.forget
    rw [hpc] at hm
    generalize a.pc t = pc at hm
    cases hm with
    | P hc | V hc => cases hc
    | act hl =>
      generalize hk : Pc.startProcess2 id = k at hl
      cases hl with
      | newSpace _ _ _ hk' | noProgram hk' | callSem hk' => simp [← hk] at hk'
      | user _ hk' => cases hk' <;> cases hk
      | removeFinish => split at hk <;> cases hk
      | _ => cases hk

theorem exec_step (hs : Noted (process initial) notes a es b) (hi : TableInv a.forget)
    (h : ExecInv a) : ExecInv b := by
  have hstep := processStep_of_step hs.forget
  have hk := kept_of_step hstep hi
  have hi' := table_step hstep hi
  obtain ⟨ns, hns, hm⟩ := moved_of_noted hs
  have hexecing : ∀ t < b.nextTid, (b.pc t).Execing b.data.1 b.data.2 t := by
    intro t ht
    rw [hns]
    cases hm t with
    | rest hv hpc hnt =>
      rw [hpc]
      exact (h.execing t (hv ht)).mono (hv ht) hi (hi.looked t (hv ht)) hk (lastCalled_others hnt _)
    | new _ _ hpc =>
      rw [hpc]
      trivial
    | own hv hmt => exact execing_own hmt hv hi hk (h.execing t hv)
  constructor
  · exact hexecing
  · intro t ht i hid t'
    exact h.step_fresh hi hi' hns hm ht hid ((hexecing t ht).childOf (hi'.looked t ht) hid)
  · intro t ht i hpc
    rcases startProcess2_of_moved (hm t) ht hpc with ⟨hlt, hpc'⟩ | hpid
    · exact (hk.processID t hlt).trans (h.starting t hlt i hpc')
    · exact hpid
  · exact fun t i n hn => h.step_loads hi hk hns hm hn
  · exact fun l₁ t i l₂ hsplit h0 => h.step_returned hi hk hns hm hsplit h0

theorem exec_run (h : (atomic (history initial)).Run tr a) : ExecInv a := by
  refine h.invariant (I := fun _ a => ExecInv a) ?_ ?_
  · rintro a rfl
    constructor <;> simp [Program.initial, history, Program.noting, process, Pc.Execing, Pc.execId]
  · intro tr a es b hr hi hs
    exact exec_step (noted_of_step hs) (table_run (forget_run hr)) hi

/-! ## The locks of `ExecUpdate` -/

/-- Between `bmsem->P()` and the `bmsem->V()` of the path taken. -/
def Pc.inBmsem : Pc → Bool
  | .exec (.check _) | .exec (.multexP ..) | .exec (.fork ..) | .exec (.multexV ..)
  | .exec (.V ..) => true
  | _ => false

/-- Between `multex->P()` and `multex->V()` of one `PCB`. -/
def Pc.inMultex (o : ObjectId) : Pc → Bool
  | .exec (.fork _ p _) | .exec (.multexV _ p _) | .join _ (.inc p) | .join _ (.incV p)
  | .exit _ (.dec p) | .exit _ (.decV p) => p = o
  | _ => false

/-- Inside these locks the code does not stop the machine. -/
theorem unlocked_of_halted {f : Choice → Data → Option (Pc × Data × List Ev)} {c : Choice}
    {evs : List Ev} (hc : code t pc = .act f) (hf : f c d = some (.halted, d', evs)) :
    pc.inBmsem = false ∧ ∀ o, pc.inMultex o = false := by
  cases pc with
  | exec j =>
    cases j with
    | check name =>
      simp only [code, execCode, Instr.act.injEq] at hc
      subst hc
      simp only at hf
      split at hf <;> simp at hf
    | _ => simp [code, execCode, Pc.inBmsem, Pc.inMultex] at hc ⊢
  | join c' j =>
    cases j with
    | inc p =>
      simp only [code, joinCode, Instr.act.injEq] at hc
      subst hc
      simp at hf
    | _ => simp [code, joinCode, Pc.inBmsem, Pc.inMultex] at hc ⊢
  | exit e j =>
    cases j with
    | dec p =>
      simp only [code, exitCode, Instr.act.injEq] at hc
      subst hc
      simp at hf
    | _ => simp [code, exitCode, Pc.inBmsem, Pc.inMultex] at hc ⊢
  | _ => exact ⟨rfl, fun _ => rfl⟩

/-- Nor does a step that calls no semaphore get into or out of them. -/
theorem locks_of_localStep {es : List Ev} {k : Pc} (hl : LocalStep t d pc es k d')
    (hk : k ≠ .halted) : k.inBmsem = pc.inBmsem ∧ ∀ o, k.inMultex o = pc.inMultex o := by
  cases hl with
  | newSpace w n hpc hk =>
    rcases hpc with rfl | ⟨_, rfl⟩ <;> rcases hk with rfl | ⟨_, rfl⟩ | rfl <;>
      exact ⟨rfl, fun _ => rfl⟩
  | noProgram hk | callSem hk => rcases hk with ⟨_, rfl⟩ | ⟨_, rfl⟩ <;> exact ⟨rfl, fun _ => rfl⟩
  | user r hk => cases hk <;> exact ⟨rfl, fun _ => rfl⟩
  | removeFinish ho hu => split <;> exact ⟨rfl, fun _ => rfl⟩
  | halt => exact absurd rfl hk
  | _ => exact ⟨rfl, fun _ => rfl⟩

theorem bmsem_lock : (process initial).Lock .bmsem Pc.inBmsem := by
  refine lock_of_steps rfl rfl ⟨rfl, fun _ => rfl⟩ rfl ?_ ?_ (fun _ _ _ _ => rfl) ?_ ?_
  · intro s' pc k hc
    cases hc <;> simp [Pc.inBmsem]
  · intro s' pc k hc
    cases hc <;> simp [Pc.inBmsem]
  · intro t d pc es k d' hl hk
    exact (locks_of_localStep hl hk).1
  · intro t d d' pc es c f hc hf
    exact (unlocked_of_halted hc hf).1.symm

theorem multex_lock (o : ObjectId) : (process initial).Lock (.multex o) (Pc.inMultex o) := by
  refine lock_of_steps rfl rfl ⟨rfl, fun _ => rfl⟩ rfl ?_ ?_ (fun _ _ _ _ => rfl) ?_ ?_
  · intro s' pc k hc
    cases hc <;> simp [Pc.inMultex]
  · intro s' pc k hc
    cases hc <;> simp [Pc.inMultex]
  · intro t d pc es k d' hl hk
    exact (locks_of_localStep hl hk).2 o
  · intro t d d' pc es c f hc hf
    exact ((unlocked_of_halted hc hf).2 o).symm

section Kernel

variable {σ : Kernel SemId Pc (Data × List Note)} {tr : List (KEvent SemId Ev)}

/-- Nobody leaves the lock taken behind: it is at one while nobody is inside, and whoever
is outside has given it back as often as taken. -/
structure LockFree (s : SemId) (inside : Pc → Bool) (tr : List (KEvent SemId Ev))
    (σ : Kernel SemId Pc (Data × List Note)) : Prop where
  value : (∀ t < σ.nextTid, inside (σ.pc t) = false) → (σ.sem s).value = 1
  balance : ∀ t < σ.nextTid, inside (σ.pc t) = false →
    acquired s t (synced tr) = released s t (synced tr)

theorem lockFree_of_lock {s : SemId} {inside : Pc → Bool} (hl : (process initial).Lock s inside)
    (h : (kernel (history initial)).Run tr σ) : LockFree s inside tr σ := by
  have hx := exclusive_run hl (forget_run (atomic_run h))
  have hh : ∀ t < σ.nextTid, inside (σ.pc t) = false → ¬Holds inside σ.atomically.forget t := by
    intro t _ hin hold
    have : inside (σ.pc t) = true := hold.2
    simp [hin] at this
  constructor
  · intro hnone
    rcases hx.value with hv | ⟨_, t, ht⟩
    · exact hv.1
    · exact absurd ht (hh t ht.1 (hnone t ht.1))
  · intro t ht hin
    have hb := hx.balance t
    rwa [if_neg (hh t ht hin)] at hb

/-- What `ExecUpdate` promises. -/
structure ExecIdentity (tr : List (KEvent SemId Ev)) (σ : Kernel SemId Pc (Data × List Note)) :
    Prop where
  /-- A call that returned `id` has made process `id`, of one thread and for the name it was
  given; no other call returned `id`, and only that thread loads a program for `id`. -/
  identity : ∀ l₁ t id l₂, σ.data.2 = l₁ ++ .returned t id :: l₂ → id ≠ -1 →
    ∃ name u, lastCalled t l₁ = some name ∧ Execed σ.data.1 l₁ t name id u ∧
      (∀ u' < σ.nextTid, σ.data.1.processID u' = id → u' = u) ∧
      (∀ t', .returned t' id ∉ l₁) ∧
      ∀ u' n, .loads u' id n ∈ σ.data.2 → u' = u ∧ n = some name
  bmsem : LockFree .bmsem Pc.inBmsem tr σ
  multex : ∀ o, LockFree (.multex o) (Pc.inMultex o) tr σ

/-- In every interleaving each `Exec` gets a process of its own, which loads its file. -/
theorem exec_identity (h : (kernel (history initial)).Run tr σ) : ExecIdentity tr σ := by
  have hr := atomic_run h
  have he := exec_run hr
  have hi := table_run (forget_run hr)
  refine ⟨?_, lockFree_of_lock bmsem_lock h, fun o => lockFree_of_lock (multex_lock o) h⟩
  intro l₁ t id l₂ hsplit h0
  obtain ⟨_, ⟨name, u, hname, hex⟩, hfirst⟩ := he.returned l₁ t id l₂ hsplit h0
  obtain ⟨o, ho, hth, _, hon⟩ := hex.pcb
  have hu : u < σ.nextTid := (hi.thread o (hi.slot id o ho).2.2 u hth).2.1
  have hunique : ∀ u' < σ.nextTid, σ.data.1.processID u' = id → u' = u :=
    fun u' hu' hpid => hi.processID_inj hu' hu (hpid.trans hex.processID.symm)
  refine ⟨name, u, hname, hex, hunique, hfirst, fun u' n hl => ?_⟩
  obtain ⟨hu', hpid, rfl⟩ := he.loads u' id n hl
  have hfile : σ.data.1.getFileName id = some name := by
    have ho : σ.data.1.pcb id = some o := ho
    have hon : (σ.data.1.object o).name = name := hon
    simp [Data.getFileName, ho, hon]
  exact ⟨hunique u' hu' hpid, hfile⟩

/-- The main program executes `child` and gets `1`; thread `1` loads `child`. -/
theorem exec_identity_child : ∃ tr σ l₁ l₂, (kernel (history fun _ => 0)).Run tr σ ∧
    σ.data.2 = l₁ ++ .returned 0 1 :: l₂ ∧ .loads 1 1 (some "child") ∈ σ.data.2 ∧
    lastCalled 0 l₁ = some "child" ∧ Execed σ.data.1 l₁ 0 "child" 1 1 := by
  obtain ⟨tr, σ, hr, _, hp⟩ := System.exists_run_of_exec (Kernel.boot (history fun _ => 0))
    (Kernel.next (history fun _ => 0))
    (bootSchedule ++ (userCalls 2 0).dropLast ++ [.cpu { name := "child" }] ++ cpu 17 ++
      joinSchedule ++ startSchedule)
    (fun r => decide (.returned 0 1 ∈ r.1.data.2 ∧ .loads 1 1 (some "child") ∈ r.1.data.2))
    (by decide +kernel)
  obtain ⟨hret, hl⟩ := of_decide_eq_true hp
  obtain ⟨l₁, l₂, hsplit⟩ := List.append_of_mem hret
  obtain ⟨name, u, hname, hex, _, _, hloads⟩ :=
    (exec_identity hr).identity l₁ 0 1 l₂ hsplit (by decide)
  obtain ⟨rfl, hn⟩ := hloads 1 (some "child") hl
  simp only [Option.some.injEq] at hn
  subst hn
  exact ⟨tr, σ, l₁, l₂, hr, hsplit, hl, hname, hex⟩

end Kernel

end Nachos
