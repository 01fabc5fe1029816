import Nachos.Userprog.Memory

/-!
# The context of a user program

`Scheduler::Run` saves and restores the registers of a thread that has an address space,
and a thread that runs for the first time does not come back from `SWITCH` but starts in
`ThreadRoot`. Between two switches the registers and the page table of the machine are
those of the current thread, once it has started its program.
-/
namespace Nachos

open Concurrent

variable {initial : ℕ → Int} {σ τ : Kernel SemId Pc Data} {tr es : List (KEvent SemId Ev)}
  {t u : Tid} {d d' : Data} {pc k : Pc} {s : SemId}

/-- What `t` itself has left in the registers. -/
def leftBy (t : Tid) : KEvent SemId Ev → Option Registers
  | .sync (.act u (.left r)) => if u = t then some r else none
  | _ => none

def lastLeft (t : Tid) (tr : List (KEvent SemId Ev)) : Option Registers :=
  (tr.filterMap (leftBy t)).getLast?

/-- The events leave nothing in the registers. -/
def Leaves (es : List (KEvent SemId Ev)) : Prop := ∀ t, ∀ x ∈ es, leftBy t x = none

theorem lastLeft_append (h : ∀ x ∈ es, leftBy t x = none) :
    lastLeft t (tr ++ es) = lastLeft t tr := by
  rw [lastLeft, List.filterMap_append, List.filterMap_eq_nil_iff.mpr h, List.append_nil, lastLeft]

theorem lastLeft_left (t : Tid) (r : Registers) :
    lastLeft t (tr ++ [.sync (.act t (.left r))]) = some r := by
  simp [lastLeft, leftBy]

/-- The registers are what was left, up to a delayed load that an interrupt has settled. -/
def Own (r l : Registers) : Prop := r = l ∨ r = l.settle

theorem Own.settle {r l : Registers} (h : Own r l) : Own r.settle l := by
  rcases h with rfl | rfl
  · exact .inr rfl
  · exact .inr (by simp)

/-- Inside a user program, or in a system call of it. -/
def Pc.running : Pc → Bool
  | .startProcess | .mainReturn | .startProcess2 _ | .construct .. | .halted => false
  | _ => true

/-- The machine holds the context of `t`. -/
def Live (tr : List (KEvent SemId Ev)) (d : Data) (t : Tid) : Prop :=
  ∃ a l, d.space t = some a ∧ d.pageTable = (d.addrSpace a).pageTable ∧
    d.pageTableSize = (d.addrSpace a).numPages ∧ lastLeft t tr = some l ∧ Own d.registers l

/-- The saved registers of `t` are its own. -/
def Saved (tr : List (KEvent SemId Ev)) (d : Data) (t : Tid) : Prop :=
  ∃ a l, d.space t = some a ∧ lastLeft t tr = some l ∧ Own (d.userRegisters t) l

/-- The context of the current thread is in the machine, all others are saved, and a
thread that has never run has none. -/
structure ContextInv (tr : List (KEvent SemId Ev)) (σ : Kernel SemId Pc Data) : Prop where
  live : σ.ctrl ≠ .switched → (σ.pc σ.currentThread).running = true →
    Live tr σ.data σ.currentThread
  saved : ∀ t < σ.nextTid, t ≠ σ.currentThread ∨ σ.ctrl = .switched →
    (σ.pc t).running = true → Saved tr σ.data t
  root : ∀ t < σ.nextTid, t ≠ σ.currentThread ∨ σ.ctrl.asleep = true ∨ σ.ctrl = .switched →
    σ.resume t = .threadRoot → (σ.pc t).running = false

theorem running_of_callsP (h : CallsP pc s k) : k.running = pc.running := by cases h <;> rfl

theorem running_of_callsV (h : CallsV pc s k) : k.running = pc.running := by cases h <;> rfl

theorem Saved.append (h : Saved tr d t) (hes : ∀ x ∈ es, leftBy t x = none) :
    Saved (tr ++ es) d t := by
  obtain ⟨a, l, hs, hl, ho⟩ := h
  exact ⟨a, l, hs, by rw [lastLeft_append hes, hl], ho⟩

theorem Live.append (h : Live tr d t) (hes : ∀ x ∈ es, leftBy t x = none) :
    Live (tr ++ es) d t := by
  obtain ⟨a, l, hs, hp, hn, hl, ho⟩ := h
  exact ⟨a, l, hs, hp, hn, by rw [lastLeft_append hes, hl], ho⟩

/-- `SaveUserState`. -/
theorem Live.save (h : Live tr d t) : Saved tr (saveUserState t d) t := by
  obtain ⟨a, l, hs, _, _, hl, ho⟩ := h
  refine ⟨a, l, ?_, hl, ?_⟩ <;> simp [saveUserState, hs, ho]

theorem Saved.save_other (h : Saved tr d t) (htu : t ≠ u) : Saved tr (saveUserState u d) t := by
  obtain ⟨a, l, hs, hl, ho⟩ := h
  refine ⟨a, l, ?_, hl, ?_⟩ <;> unfold saveUserState <;> split <;> simp [hs, ho, htu]

/-- `RestoreUserState`. -/
theorem Saved.restore (h : Saved tr d t) : Live tr (restoreUserState t d) t := by
  obtain ⟨a, l, hs, hl, ho⟩ := h
  refine ⟨a, l, ?_, ?_, ?_, hl, ?_⟩ <;> simp [restoreUserState, hs, ho]

theorem Saved.restore_other (h : Saved tr d t) : Saved tr (restoreUserState u d) t := by
  obtain ⟨a, l, hs, hl, ho⟩ := h
  refine ⟨a, l, ?_, hl, ?_⟩ <;> unfold restoreUserState <;> split <;> simp [hs, ho]

/-- Steps that leave the machine with the current thread. -/
theorem ContextInv.frame (h : ContextInv tr σ) (hes : Leaves es)
    (hcur : τ.currentThread = σ.currentThread) (hnext : τ.nextTid = σ.nextTid)
    (hdata : τ.data = σ.data) (hpc : ∀ t, (τ.pc t).running = (σ.pc t).running)
    (hσ : σ.ctrl ≠ .switched) (hτ : τ.ctrl ≠ .switched)
    (hresume : ∀ t, τ.resume t = .threadRoot → σ.resume t = .threadRoot)
    (hsleep : τ.resume σ.currentThread = .threadRoot → τ.ctrl.asleep = true →
      σ.ctrl.asleep = true) : ContextInv (tr ++ es) τ := by
  constructor
  · intro _ hrun
    rw [hcur, hpc] at hrun
    rw [hcur, hdata]
    exact (h.live hσ hrun).append (hes _)
  · intro t ht hoff hrun
    rw [hcur] at hoff
    rw [hpc] at hrun
    rw [hdata]
    exact (h.saved t (hnext ▸ ht) (.inl (hoff.resolve_right hτ)) hrun).append (hes t)
  · intro t ht hoff hres
    rw [hcur] at hoff
    rw [hpc]
    refine h.root t (hnext ▸ ht) ?_ (hresume t hres)
    rcases hoff with hoff | ha | hs
    · exact .inl hoff
    · by_cases htc : t = σ.currentThread
      · exact .inr (.inl (hsleep (htc ▸ hres) ha))
      · exact .inl htc
    · exact absurd hs hτ

/-- Only the current thread's own code touches its context, and only when it says so. -/
theorem context_act {es : List Ev} (hl : LocalStep t d pc es k d')
    (h : pc.running = true → Live tr d t) (hk : k.running = true) :
    Live (tr ++ es.map fun e => .sync (.act t e)) d' t := by
  have hacts : ∀ es : List Ev, (∀ r, .left r ∉ es) →
      ∀ x ∈ es.map fun e => (.sync (.act t e) : KEvent SemId Ev), leftBy t x = none := by
    intro es hes x hx
    obtain ⟨e, he, rfl⟩ := List.mem_map.mp hx
    cases e with
    | left r => exact absurd he (hes r)
    | _ => rfl
  cases hl with
  | start => exact ⟨_, _, by simp, rfl, rfl, lastLeft_left t _, .inl rfl⟩
  | user r _ | sysret r | callReturn r =>
    obtain ⟨a, l, hs, hp, hn, _, _⟩ := h rfl
    exact ⟨a, r, hs, hp, hn, lastLeft_left t r, .inl rfl⟩
  | noProgram hk' => rcases hk' with rfl | rfl <;> cases hk
  | newSpace _ _ _ hk' => rcases hk' with rfl | ⟨_, rfl⟩ | rfl <;> cases hk
  | halt | full | fits | page | lastPage | load | loadFails => cases hk
  | removeFinish => exact (h rfl).append (hacts _ (by simp [freeSpace]))
  | _ => exact Live.append (h rfl) (hacts _ (by simp))

/-- A thread leaves saved registers alone, and address spaces that are not its own. -/
theorem saved_of_localStep {es : List Ev} (hl : LocalStep t d pc es k d') :
    d'.userRegisters = d.userRegisters ∧ ∀ u ≠ t, d'.space u = d.space u := by
  cases hl <;> simp +contextual [Data.setAddrSpace, Data.setObject]

/-- The contexts of other threads are not touched. -/
theorem context_others {es : List Ev} (hl : LocalStep t d pc es k d') (hut : u ≠ t)
    (h : Saved tr d u) : Saved (tr ++ es.map fun e => .sync (.act t e)) d' u := by
  obtain ⟨huser, hspace⟩ := saved_of_localStep hl
  have hes : ∀ x ∈ es.map fun e => (.sync (.act t e) : KEvent SemId Ev), leftBy u x = none := by
    intro x hx
    obtain ⟨e, _, rfl⟩ := List.mem_map.mp hx
    cases e <;> simp [leftBy, hut.symm]
  obtain ⟨a, l, hs, hleft, ho⟩ := h.append hes
  exact ⟨a, l, by rw [hspace u hut, hs], hleft, by rwa [huser]⟩

/-- `SWITCH` to another thread, the current one having been saved. -/
theorem ContextInv.dispatch (h : ContextInv tr σ) (hσ : σ.ctrl ≠ .switched) (hes : Leaves es)
    (hctrl : τ.ctrl = .switched) (hnext : τ.nextTid = σ.nextTid)
    (hdata : τ.data = saveUserState σ.currentThread σ.data)
    (hpc : ∀ t, (τ.pc t).running = (σ.pc t).running)
    (hroot : ∀ t < σ.nextTid, τ.resume t = .threadRoot → (σ.pc t).running = false) :
    ContextInv (tr ++ es) τ := by
  refine ⟨fun hn => absurd hctrl hn, ?_, ?_⟩
  · intro t ht _ hrun
    rw [hpc] at hrun
    rw [hdata]
    refine Saved.append ?_ (hes t)
    by_cases htc : t = σ.currentThread
    · subst htc
      exact (h.live hσ hrun).save
    · exact (h.saved t (hnext ▸ ht) (.inl htc) hrun).save_other htc
  · intro t ht _ hres
    rw [hpc]
    exact hroot t (hnext ▸ ht) hres

/-- Back in `Scheduler::Run`, in the thread that was switched to. -/
theorem ContextInv.restore (h : ContextInv tr σ) (hp : σ.currentThread < σ.nextTid)
    (hσ : σ.ctrl = .switched) (hes : Leaves es) (hcur : τ.currentThread = σ.currentThread)
    (hnext : τ.nextTid = σ.nextTid) (hdata : τ.data = restoreUserState σ.currentThread σ.data)
    (hpc : τ.pc = σ.pc) (hresume : τ.resume = σ.resume) : ContextInv (tr ++ es) τ := by
  constructor
  · intro _ hrun
    rw [hcur, hpc] at hrun
    rw [hcur, hdata]
    exact (h.saved _ hp (.inr hσ) hrun).restore.append (hes _)
  · intro t ht _ hrun
    rw [hpc] at hrun
    rw [hdata]
    exact (h.saved t (hnext ▸ ht) (.inr hσ) hrun).restore_other.append (hes t)
  · intro t ht _ hres
    rw [hpc]
    rw [hresume] at hres
    exact h.root t (hnext ▸ ht) (.inr (.inr hσ)) hres

/-- An interrupt handler settles a delayed load. -/
theorem ContextInv.interrupt (h : ContextInv tr σ) (hes : Leaves es)
    (hcur : τ.currentThread = σ.currentThread) (hnext : τ.nextTid = σ.nextTid)
    (hdata : τ.data = { σ.data with registers := σ.data.registers.settle }) (hpc : τ.pc = σ.pc)
    (hresume : τ.resume = σ.resume) (hctrl : τ.ctrl = σ.ctrl) : ContextInv (tr ++ es) τ := by
  constructor
  · intro hn hrun
    rw [hctrl] at hn
    rw [hcur, hpc] at hrun
    obtain ⟨a, l, hs, hp, hz, hl, ho⟩ := (h.live hn hrun).append (hes _)
    rw [hcur, hdata]
    exact ⟨a, l, hs, hp, hz, hl, ho.settle⟩
  · intro t ht hoff hrun
    rw [hcur, hctrl] at hoff
    rw [hpc] at hrun
    obtain ⟨a, l, hs, hl, ho⟩ := (h.saved t (hnext ▸ ht) hoff hrun).append (hes t)
    rw [hdata]
    exact ⟨a, l, hs, hl, ho⟩
  · simpa only [hnext, hcur, hctrl, hresume, hpc] using h.root

/-- A new thread has no context. -/
theorem ContextInv.fork (h : ContextInv tr σ) (hp : σ.currentThread < σ.nextTid)
    (hr : σ.ctrl = .run) {i : Int} {o : ObjectId} {name : String}
    (hpc : σ.pc σ.currentThread = .exec (.fork i o name)) :
    ContextInv (tr ++ [.ready σ.nextTid])
      (σ.fork (.startProcess2 i) (fun u => .exec (.multexV i o u)) fun u d =>
        { d.setObject o fun b =>
            { b with thread := some u, parentID := d.processID σ.currentThread } with
          processID := Function.update d.processID u i
          threadName := Function.update d.threadName u (some name)
          space := Function.update d.space u none }) := by
  generalize hτ : σ.fork _ _ _ = τ
  have hcur : τ.currentThread = σ.currentThread := by simp [← hτ, Kernel.fork]
  have hpcτ : τ.pc = Function.update (Function.update σ.pc σ.nextTid (.startProcess2 i))
      σ.currentThread (.exec (.multexV i o σ.nextTid)) := by simp [← hτ, Kernel.fork]
  have hctrl : τ.ctrl ≠ .switched ∧ τ.ctrl.asleep = false := by
    rw [← hτ]
    exact (setLevel_returns _ _).2.symm
  have hold : ∀ t < τ.nextTid, t ≠ σ.nextTid → t < σ.nextTid := by
    intro t ht hne
    have ht : t < σ.nextTid + 1 := by simpa [← hτ, Kernel.fork] using ht
    exact lt_of_le_of_ne (Nat.lt_succ_iff.mp ht) hne
  have hspace : ∀ t, t ≠ σ.nextTid → τ.data.space t = σ.data.space t := by
    intro t ht
    simp [← hτ, Kernel.fork, ht]
  have hdata : τ.data.registers = σ.data.registers ∧ τ.data.userRegisters = σ.data.userRegisters ∧
      τ.data.pageTable = σ.data.pageTable ∧ τ.data.pageTableSize = σ.data.pageTableSize ∧
      τ.data.addrSpace = σ.data.addrSpace := by
    simp [← hτ, Kernel.fork, Data.setObject]
  have hresume : ∀ t, t ≠ σ.nextTid → τ.resume t = σ.resume t := by
    intro t ht
    simp [← hτ, Kernel.fork, ht]
  obtain ⟨h1, h2, h3, h4, h5⟩ := hdata
  have hes : Leaves [.ready σ.nextTid] := by simp [Leaves, leftBy]
  have hnew : (τ.pc σ.nextTid).running = false := by simp [hpcτ, hp.ne', Pc.running]
  constructor
  · intro _ hrun
    obtain ⟨a, l, hs, hx⟩ := (h.live (by simp [hr]) (by rw [hpc]; rfl)).append (hes _)
    rw [hcur]
    refine ⟨a, l, by rw [hspace _ hp.ne, hs], ?_⟩
    rwa [h1, h3, h4, h5]
  · intro t ht hoff hrun
    have htc : t ≠ σ.currentThread := by simpa [hcur, hctrl.1] using hoff
    by_cases htn : t = σ.nextTid
    · rw [htn, hnew] at hrun
      cases hrun
    · have hrun : (σ.pc t).running = true := by simpa [hpcτ, htc, htn] using hrun
      obtain ⟨a, l, hs, hx⟩ := (h.saved t (hold t ht htn) (.inl htc) hrun).append (hes t)
      exact ⟨a, l, by rw [hspace t htn, hs], by rwa [h2]⟩
  · intro t ht hoff hres
    have htc : t ≠ σ.currentThread := by simpa [hcur, hctrl] using hoff
    by_cases htn : t = σ.nextTid
    · rw [htn, hnew]
    · rw [hresume t htn] at hres
      simpa [hpcτ, htc, htn] using h.root t (hold t ht htn) (.inl htc) hres

theorem leaves_nil : Leaves [] := by simp [Leaves]

theorem leaves_V (σ : Kernel SemId Pc Data) (s : SemId) (t : Option Tid) :
    Leaves (σ.semaphoreVReady s ++ [.sync (.V t s)]) := by
  intro u x hx
  simp only [Kernel.semaphoreVReady, List.mem_append, List.mem_map, List.mem_singleton] at hx
  rcases hx with ⟨_, _, rfl⟩ | rfl <;> rfl

theorem leaves_destroyed (σ : Kernel SemId Pc Data) : Leaves σ.destroyed := by
  intro u x hx
  simp only [Kernel.destroyed, List.mem_map] at hx
  obtain ⟨_, _, rfl⟩ := hx
  rfl

theorem context_step (hs : Kernel.Step (process initial) σ es τ) (hp : Placement tr σ)
    (hcall : AtCall (process initial) σ) (h : ContextInv tr σ) : ContextInv (tr ++ es) τ := by
  have hmove : ∀ k, k.running = (σ.pc σ.currentThread).running →
      ∀ t, (Function.update σ.pc σ.currentThread k t).running = (σ.pc t).running := by
    intro k hk t
    by_cases ht : t = σ.currentThread
    · simp [ht, hk]
    · simp [ht]
  have hreturn : ∀ {τ : Kernel SemId Pc Data} {old : IntStatus} {p : Prop},
      (τ.setLevel old).ctrl.asleep = true → p := by
    intro τ old p ha
    simp [(setLevel_returns τ old).2.1] at ha
  cases hs with
  | enterP hr hc =>
    exact h.frame leaves_nil rfl rfl rfl (fun _ => rfl) (by simp [hr]) (by simp) (fun _ => id)
      (by simp)
  | @V s k hr hc =>
    exact h.frame (leaves_V σ s _) (by simp) (by simp) (by simp)
      (by simpa using hmove k (running_of_callsV (callsV_of_code hc))) (by simp [hr])
      (setLevel_returns _ _).2.2 (by simp) fun _ => hreturn
  | @tick k hr hc =>
    obtain ⟨rfl, hpc⟩ := tick_of_code (.inr hc)
    exact h.frame leaves_nil rfl rfl rfl (hmove _ (by rw [hpc]; rfl)) (by simp [hr]) (by simp)
      (fun _ => id) (by simp)
  | @fork child j setup hr hc =>
    obtain ⟨i, o, name, hpc, rfl, rfl, rfl⟩ := fork_of_code hc
    exact h.fork hp.current hr hpc
  | @act f c k d es hr hc hf =>
    have hl := localStep_of_code hc hf
    have hctrl : σ.ctrl ≠ .switched := by simp [hr]
    constructor
    · intro _ hrun
      exact context_act hl (h.live hctrl) (by simpa using hrun)
    · intro t ht hoff hrun
      have htc : t ≠ σ.currentThread := hoff.resolve_right hctrl
      exact context_others hl htc (h.saved t ht (.inl htc) (by simpa [htc] using hrun))
    · intro t ht hoff hres
      have htc : t ≠ σ.currentThread := by simpa [hr] using hoff
      simpa [htc] using h.root t ht (.inl htc) hres
  | finish hr hc =>
    refine h.frame (by simp [Leaves, leftBy]) rfl rfl rfl (fun _ => rfl) (by simp [hr]) (by simp)
      (fun t ht => ?_) (by simp)
    by_cases htc : t = σ.currentThread
    · simp [htc] at ht
    · simpa [htc] using ht
  | block hr hv =>
    refine h.frame leaves_nil rfl rfl rfl (fun _ => rfl) (by simp [hr]) (by simp)
      (fun t ht => ?_) (by simp)
    by_cases htc : t = σ.currentThread
    · simp [htc] at ht
    · simpa [htc] using ht
  | @pass s k old w hr hv =>
    have hc := callsP_of_code (hcall.testing s k old w hr)
    exact h.frame (by simp [Leaves, leftBy]) (by simp) (by simp) (by simp)
      (by simpa using hmove k (running_of_callsP hc)) (by simp [hr])
      (setLevel_returns _ _).2.2 (by simp) fun _ => hreturn
  | yieldStay hr he hpc b old =>
    refine h.frame leaves_nil (by simp) (by simp) (by simp) ?_ ?_
      (setLevel_returns _ _).2.2 (by simp) fun _ => hreturn
    · rcases hpc with ⟨k, hc, _, rfl⟩ | ⟨_, rfl⟩
      · obtain ⟨rfl, hpc⟩ := tick_of_code (.inl hc)
        simpa using hmove _ (by rw [hpc]; rfl)
      · simp
    · rcases hr with hr | hr <;> simp [hr]
  | @yieldSwitch pc next rest hr he hpc b old =>
    have hpc' : ∀ t, (pc t).running = (σ.pc t).running := by
      rcases hpc with ⟨k, hc, _, rfl⟩ | ⟨_, rfl⟩
      · obtain ⟨rfl, hpc⟩ := tick_of_code (.inl hc)
        exact hmove _ (by rw [hpc]; rfl)
      · exact fun _ => rfl
    refine h.dispatch ?_ (by simp [Leaves, leftBy]) rfl rfl rfl hpc' fun t ht hres => ?_
    · rcases hr with hr | hr <;> simp [hr]
    · by_cases htc : t = σ.currentThread
      · simp [htc] at hres
      · exact h.root t ht (.inl htc) (by simpa [htc] using hres)
  | wake hr he =>
    refine h.dispatch (by simp [hr]) (by simp [Leaves, leftBy]) rfl rfl rfl (fun _ => rfl)
      fun t ht hres => ?_
    exact h.root t ht (.inr (.inl (by simp [hr]))) hres
  | idle hr he | endIdle hr =>
    exact h.frame leaves_nil rfl rfl rfl (fun _ => rfl) (by simp [hr]) (by simp) (fun _ => id)
      (by simp [hr])
  | root hr hc =>
    -- the thread has not started its program, so there is nothing to restore
    have hnew := h.root _ hp.current (.inr (.inr hr)) hc
    refine ⟨fun _ hrun => ?_, fun t ht _ hrun => ?_, fun t ht _ hres => ?_⟩
    · simp [hnew] at hrun
    · simpa using h.saved t (by simpa using ht) (.inr hr) (by simpa using hrun)
    · simpa using h.root t (by simpa using ht) (.inr (.inr hr)) (by simpa using hres)
  | backInYield hr hc =>
    exact h.restore hp.current hr (leaves_destroyed σ) (by simp) (by simp) (by simp [process])
      (by simp) (by simp)
  | backInP hr hc =>
    exact h.restore hp.current hr (leaves_destroyed σ) rfl rfl rfl rfl rfl
  | endTick hr =>
    exact h.frame leaves_nil rfl rfl rfl (fun _ => rfl) (by simp [hr]) (by simp) (fun _ => id)
      (by simp)
  | handlerV hr hd =>
    exact h.interrupt (leaves_V σ _ _) (by simp) (by simp) rfl (by simp) (by simp) (by simp)
  | handler hr b => exact h.interrupt leaves_nil rfl rfl rfl rfl rfl rfl

theorem context_run (h : (kernel (process initial)).Run tr σ) : ContextInv tr σ := by
  refine h.invariant ?_ ?_
  · rintro σ rfl
    refine ⟨?_, ?_, ?_⟩ <;> simp [Kernel.boot, process, Pc.running]
  · intro tr σ es τ hr hi hs
    exact context_step (Kernel.step_of_kernel hs) (placement_run hr) (atCall_run hr) hi

section Owner

variable {a b : State SemId Pc Data} {tr es : List (Event SemId Ev)} {x : SpaceId} {j : AddrSpacePc}

/-- No two threads have the same address space, and none has one under construction. -/
structure Owned (a : State SemId Pc Data) : Prop where
  made : ∀ t x, a.data.space t = some x → x < a.data.nextSpace
  building : ∀ t < a.nextTid, ∀ x j, a.pc t = .construct x j → ∀ u, a.data.space u ≠ some x
  unique : ∀ t u x, a.data.space t = some x → a.data.space u = some x → t = u

/-- A thread gets its address space at the end of the constructor. -/
theorem space_of_step (hs : ProcessStep a es b) (h : b.data.space u = some x) :
    a.data.space u = some x ∨
      (u < a.nextTid ∧ a.pc u = .construct x .done ∧ b.pc u = .user) := by
  cases hs with
  | @act t k d es ht hl =>
    generalize hpc : a.pc t = pc at hl
    cases hl with
    | @start x' =>
      by_cases hut : u = t
      · subst hut
        simp only [Function.update_self, Option.some.injEq] at h
        subst h
        exact .inr ⟨ht, hpc, by simp⟩
      · exact .inl (by simpa [hut] using h)
    | _ => exact .inl h
  | fork ht hc =>
    by_cases hun : u = a.nextTid
    · simp [hun] at h
    · exact .inl (by simpa [hun] using h)
  | _ => exact .inl h

/-- A constructor that runs was running, or has just been called. -/
theorem construct_of_step (hs : ProcessStep a es b) (ht : t < b.nextTid)
    (h : b.pc t = .construct x j) :
    (t < a.nextTid ∧ ∃ j', a.pc t = .construct x j') ∨ x = a.data.nextSpace := by
  cases moved_of_step hs t with
  | rest hv hpc _ => exact .inl ⟨hv ht, j, hpc ▸ h⟩
  | new _ hpc _ => simp [hpc] at h
  | own hv hm =>
    rw [h] at hm
    generalize a.pc t = pc at hm ⊢
    cases hm with
    | P hc | V hc => cases hc <;> exact .inl ⟨hv, _, rfl⟩
    | act hl =>
      generalize hk : Pc.construct x j = k at hl
      cases hl with
      | newSpace _ _ _ hk' =>
        rcases hk' with rfl | ⟨_, rfl⟩ | rfl <;> cases hk <;> exact .inr rfl
      | noProgram hk' | callSem hk' => simp [← hk] at hk'
      | user _ hk' => cases hk' <;> cases hk
      | removeFinish => split at hk <;> cases hk
      | full | fits | page | lastPage | load =>
        cases hk
        exact .inl ⟨hv, _, rfl⟩
      | _ => cases hk

theorem nextSpace_mono (hs : ProcessStep a es b) : a.data.nextSpace ≤ b.data.nextSpace := by
  cases hs with
  | @act t k d es ht hl =>
    generalize a.pc t = pc at hl
    cases hl with
    | newSpace => exact Nat.le_succ _
    | _ => exact le_rfl
  | _ => exact le_rfl

theorem owned_step (hs : ProcessStep a es b) (hm : MemoryInv tr a) (h : Owned a) : Owned b := by
  constructor
  · intro t x hx
    rcases space_of_step hs hx with hx | ⟨ht, hpc, _⟩
    · exact lt_of_lt_of_le (h.made t x hx) (nextSpace_mono hs)
    · exact lt_of_lt_of_le (hm.filled t ht x _ hpc).1 (nextSpace_mono hs)
  · intro t ht x j hj u hu
    rcases construct_of_step hs ht hj with ⟨ht', j', hj'⟩ | rfl <;>
      rcases space_of_step hs hu with hu | ⟨hu', hpc, huser⟩
    · exact h.building t ht' x j' hj' u hu
    · have : t = u := hm.owner t ht' u hu' x _ _ hj' hpc
      subst this
      simp [hj] at huser
    · exact absurd (h.made u _ hu) (lt_irrefl _)
    · exact absurd (hm.filled u hu' _ _ hpc).1 (lt_irrefl _)
  · intro t u x ht hu
    rcases space_of_step hs ht with ht | ⟨ht', hpc, _⟩ <;>
      rcases space_of_step hs hu with hu | ⟨hu', hpc', _⟩
    · exact h.unique t u x ht hu
    · exact absurd ht (h.building u hu' x _ hpc' t)
    · exact absurd hu (h.building t ht' x _ hpc u)
    · exact hm.owner t ht' u hu' x _ _ hpc hpc'

theorem owned_run (h : (atomic (process initial)).Run tr a) : Owned a := by
  refine h.invariant (I := fun _ a => Owned a) ?_ ?_
  · rintro a rfl
    constructor <;> simp [Program.initial, process, initialData]
  · intro tr a es b hr hi hs
    exact owned_step (processStep_of_step hs) (memory_run hr) hi

end Owner

/-- Whenever a user instruction is executed, the page table is that of the current
thread's own address space, and the registers are what this thread has left. -/
theorem user_context (h : (kernel (process initial)).Run tr σ) (hr : σ.ctrl = .run)
    (hu : σ.pc σ.currentThread = .user) :
    ∃ x l, σ.data.space σ.currentThread = some x ∧
      (∀ t, σ.data.space t = some x → t = σ.currentThread) ∧
      σ.data.pageTable = (σ.data.addrSpace x).pageTable ∧
      σ.data.pageTableSize = (σ.data.addrSpace x).numPages ∧
      lastLeft σ.currentThread tr = some l ∧
      (σ.data.registers = l ∨ σ.data.registers = l.settle) := by
  obtain ⟨x, l, hx, hp, hn, hl, ho⟩ := (context_run h).live (by simp [hr]) (by rw [hu]; rfl)
  exact ⟨x, l, hx, fun t ht => (owned_run (atomic_run h)).unique t _ x ht hx, hp, hn, hl, ho⟩

/-- The parent is back in its program after a `Join`, the child having run in between. -/
theorem user_context_after_join : ∃ tr σ, (kernel quiet).Run tr σ ∧ .dispatch 1 ∈ tr ∧
    σ.currentThread = 0 ∧ σ.pc 0 = .user ∧ ∃ x l, σ.data.space 0 = some x ∧
      σ.data.pageTable = (σ.data.addrSpace x).pageTable ∧ lastLeft 0 tr = some l ∧
      (σ.data.registers = l ∨ σ.data.registers = l.settle) := by
  obtain ⟨tr, σ, hr, _, hp⟩ := System.exists_run_of_exec (Kernel.boot quiet)
    (Kernel.next quiet)
    (bootSchedule ++ execSchedule ++ joinSchedule ++ startSchedule ++ exitSchedule ++
      releaseSchedule ++ cpu 5)
    (fun r => decide (.dispatch 1 ∈ r.2 ∧ r.1.currentThread = 0) &&
      (match r.1.ctrl with | .run => true | _ => false) &&
      (match r.1.pc 0 with | .user => true | _ => false)) (by decide +kernel)
  simp only [Bool.and_eq_true, decide_eq_true_eq] at hp
  obtain ⟨⟨⟨hd, h0⟩, hctrl⟩, hpc⟩ := hp
  have hctrl : σ.ctrl = .run := by
    split at hctrl
    · assumption
    · cases hctrl
  have hpc : σ.pc 0 = .user := by
    split at hpc
    · assumption
    · cases hpc
  obtain ⟨x, l, hx, _, hpt, _, hl, ho⟩ := user_context hr hctrl (h0 ▸ hpc)
  rw [h0] at hx hl
  exact ⟨tr, σ, hr, hd, h0, hpc, x, l, hx, hpt, hl, ho⟩

end Nachos
