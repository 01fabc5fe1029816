import Nachos.Filesys.OpenFile
import Nachos.Threads.Device

/-!
# The synchronous disk

`SynchDisk` (`synchdisk.cc`) over the simulated disk (`disk.cc`), called by any number of
threads. A request is carried out at once on the file of the host and reported by an interrupt
later; how much later is left open.
-/
namespace Nachos.Filesys

open Concurrent

/-- The sector and, for `WriteSector`, what is to be written. -/
inductive SectorCall
  | read (sectorNumber : Int)
  | write (sectorNumber : Int) (data : Sector)

def SectorCall.sectorNumber : SectorCall → Int
  | read sectorNumber | write sectorNumber _ => sectorNumber

/-- The assertions of `ReadRequest` and `WriteRequest`. -/
inductive DiskAssert
  | notActive
  | inRange
  deriving DecidableEq

/-- `class Disk`. Requests are numbered as they are made. `pending` are those whose interrupt is
scheduled; `completed`, those whose interrupt has been handled, is only noted. -/
structure SynchDisk where
  storage : Disk
  active : Bool
  pending : List ℕ
  requests : ℕ
  completed : List ℕ

/-- The one semaphore of `class SynchDisk`. -/
inductive SynchDiskSem
  | semaphore
  deriving DecidableEq

namespace SynchDisk

/-- `Lock::Acquire`, which has an empty body in `synch.cc`. -/
def acquire (d : SynchDisk) : SynchDisk := d

/-- `Lock::Release`, which has an empty body too. -/
def release (d : SynchDisk) : SynchDisk := d

/-- The transfer to or from the file. The result is what the caller's buffer holds then. -/
def transfer (d : SynchDisk) : SectorCall → Sector × Disk
  | .read sectorNumber => (d.storage sectorNumber.toNat, d.storage)
  | .write sectorNumber data => (data, Function.update d.storage sectorNumber.toNat data)

/-- `Disk::ReadRequest` and `Disk::WriteRequest`, which differ in the transfer only. -/
def request (d : SynchDisk) (c : SectorCall) : Except DiskAssert (Sector × SynchDisk) :=
  if d.active then .error .notActive
  else if 0 ≤ c.sectorNumber ∧ c.sectorNumber < NumSectors then
    .ok ((d.transfer c).1,
      { d with
        storage := (d.transfer c).2
        active := true
        pending := d.pending ++ [d.requests]
        requests := d.requests + 1 })
  else .error .inRange

/-- `Disk::HandleInterrupt` for the request `r`, with `SynchDisk::RequestDone`. -/
def handleInterrupt : Handlers SynchDiskSem SynchDisk ℕ := fun r d =>
  if r ∈ d.pending then
    some ({ d with
      active := false, pending := d.pending.erase r, completed := r :: d.completed },
      some .semaphore)
  else none

/-- Where a thread is. `waiting` and `returning` know the request the call has made. -/
inductive Pc
  | user
  | waiting (r : ℕ) (data : Sector)
  | returning (r : ℕ) (data : Sector)
  | aborted
  | tick
  | yield
  | fork
  | exit

inductive Ev
  | request (r : ℕ)
  | assertFailed (e : DiskAssert)
  | returned (r : ℕ)
  deriving DecidableEq

/-- What a thread does next: a call, something that takes time, `Yield`, `Fork` or `Finish`. -/
inductive Choice
  | call (c : SectorCall)
  | tick
  | yield
  | fork
  | exit

/-- `ReadSector` and `WriteSector` up to `semaphore->P()`. -/
def call (d : SynchDisk) (c : SectorCall) : Pc × SynchDisk × List Ev :=
  match d.acquire.request c with
  | .ok (data, d') => (.waiting d.requests data, d', [.request d.requests])
  | .error e => (.aborted, d, [.request d.requests, .assertFailed e])

def user (c : Choice) (d : SynchDisk) : Option (Pc × SynchDisk × List Ev) :=
  match c with
  | .call c => some (d.call c)
  | .tick => some (.tick, d, [])
  | .yield => some (.yield, d, [])
  | .fork => some (.fork, d, [])
  | .exit => some (.exit, d, [])

def code : Pc → Instr SynchDiskSem Pc SynchDisk Ev Choice
  | .user => .act user
  | .waiting r data => .P .semaphore (.returning r data)
  | .returning r _ => .act fun _ d => some (.user, d.release, [.returned r])
  | .aborted => .stop
  | .tick => .tick .user
  | .yield => .yield .user
  | .fork => .fork .user (fun _ => .user) fun _ d => d
  | .exit => .finish

def program (storage : Disk) : Program SynchDiskSem Pc SynchDisk Ev Choice where
  code _ := code
  value _ := 0
  start := .user
  data := ⟨storage, false, [], 0, []⟩
  device _ := false
  switchOut _ d := d
  switchIn _ d := d
  interrupt d := d

/-- The request a thread waits for. -/
def waitingFor : Pc → Option ℕ
  | .waiting r _ => some r
  | _ => none

/-- The request a call has made and not yet returned from. -/
def openRequest : Pc → Option ℕ
  | .waiting r _ | .returning r _ => some r
  | _ => none

/-! ## One request at a time -/

abbrev Atomic := State SynchDiskSem Pc SynchDisk

/-- No request is made while another thread waits for its own. -/
def NoOverlap (a : Atomic) (es : List (Event SynchDiskSem Ev)) : Prop :=
  (∃ t r, .act t (.request r) ∈ es) → ∀ u < a.nextTid, waitingFor (a.pc u) = none

def isRequest : Event SynchDiskSem Ev → Bool
  | .act _ (.request _) => true
  | _ => false

instance (a : Atomic) (es : List (Event SynchDiskSem Ev)) : Decidable (NoOverlap a es) :=
  decidable_of_iff (es.any isRequest = true → ∀ u < a.nextTid, waitingFor (a.pc u) = none) <| by
    have hany : es.any isRequest = true ↔ ∃ t r, .act t (.request r) ∈ es := by
      rw [List.any_eq_true]
      constructor
      · rintro ⟨e, hm, he⟩
        unfold isRequest at he
        split at he
        · exact ⟨_, _, hm⟩
        · cases he
      · rintro ⟨t, r, hm⟩
        exact ⟨_, hm, rfl⟩
    rw [hany, NoOverlap]

/-- The disk as the thread `t` that waits for `r` finds it: still at work, or done and the
thread not yet past `P`. -/
inductive Serving (r : ℕ) (v : Int) (d : SynchDisk) : Prop
  | busy (ha : d.active = true) (hp : d.pending = [r]) (hv : v = 0)
  | done (ha : d.active = false) (hp : d.pending = []) (hv : v = 1) (hc : r ∈ d.completed)

structure Resting (v : Int) (d : SynchDisk) : Prop where
  active : d.active = false
  pending : d.pending = []
  value : v = 0

structure Inv (tr : List (Event SynchDiskSem Ev)) (a : Atomic) : Prop where
  phase : ((∀ u, waitingFor (a.pc u) = none) ∧ Resting (a.value .semaphore) a.data) ∨
    ∃ t < a.nextTid, ∃ r, waitingFor (a.pc t) = some r ∧
      (∀ u, u ≠ t → waitingFor (a.pc u) = none) ∧ Serving r (a.value .semaphore) a.data
  own : ∀ t r, openRequest (a.pc t) = some r → .act t (.request r) ∈ tr
  passed : ∀ t r data, a.pc t = .returning r data → r ∈ a.data.completed
  returned : ∀ t r, .act t (.returned r) ∈ tr →
    .act t (.request r) ∈ tr ∧ r ∈ a.data.completed
  asserts : ∀ t, .act t (.assertFailed .notActive) ∉ tr

variable {tr es : List (Event SynchDiskSem Ev)} {a b : Atomic} {t : Tid} {storage : Disk}

theorem waitingFor_of_openRequest {k : Pc} (h : openRequest k = none) : waitingFor k = none := by
  cases k <;> simp_all [openRequest, waitingFor]

/-- Threads move outside of calls only, and one that has not been forked is in none. -/
theorem Inv.frame (h : Inv tr a) (hv : b.value = a.value) (hd : b.data = a.data)
    (hn : a.nextTid ≤ b.nextTid)
    (hpc : ∀ u, b.pc u = a.pc u ∨
      openRequest (b.pc u) = none ∧ (openRequest (a.pc u) = none ∨ a.nextTid ≤ u)) :
    Inv tr b := by
  have hstill : ∀ u, waitingFor (a.pc u) = none → waitingFor (b.pc u) = none := by
    intro u hu
    rcases hpc u with he | ⟨he, -⟩
    · rw [he, hu]
    · exact waitingFor_of_openRequest he
  refine ⟨?_, ?_, ?_, by simpa only [hd] using h.returned, h.asserts⟩
  · rcases h.phase with ⟨hw, hr⟩ | ⟨t, ht, r, hw, hothers, hs⟩
    · exact .inl ⟨fun u => hstill u (hw u), by simpa only [hv, hd] using hr⟩
    · refine .inr ⟨t, ht.trans_le hn, r, ?_, fun u hu => hstill u (hothers u hu),
        by simpa only [hv, hd] using hs⟩
      rcases hpc t with he | ⟨-, he | he⟩
      · rw [he, hw]
      · rw [waitingFor_of_openRequest he] at hw
        cases hw
      · exact absurd ht he.not_gt
  · intro u r hu
    rcases hpc u with he | ⟨he, -⟩
    · exact h.own u r (he ▸ hu)
    · rw [he] at hu
      cases hu
  · intro u r data hu
    rw [hd]
    rcases hpc u with he | ⟨he, -⟩
    · exact h.passed u r data (he ▸ hu)
    · rw [hu] at he
      cases he

/-- Nobody waits, so the disk rests. -/
theorem Inv.resting (h : Inv tr a) (hn : ∀ u < a.nextTid, waitingFor (a.pc u) = none) :
    (∀ u, waitingFor (a.pc u) = none) ∧ Resting (a.value .semaphore) a.data := by
  rcases h.phase with hr | ⟨t, ht, r, hw, -⟩
  · exact hr
  · rw [hn t ht] at hw
    cases hw

/-- More events, none of them the return of a call or the failure that must not happen. -/
theorem Inv.more (h : Inv tr a) (hr : ∀ t r, .act t (.returned r) ∉ es)
    (ha : ∀ t, .act t (.assertFailed .notActive) ∉ es) : Inv (tr ++ es) a where
  phase := h.phase
  own t r hu := List.mem_append_left _ (h.own t r hu)
  passed := h.passed
  returned t r hm := by
    rcases List.mem_append.mp hm with hm | hm
    · exact (h.returned t r hm).imp (List.mem_append_left _) id
    · exact absurd hm (hr t r)
  asserts t hm := by
    rcases List.mem_append.mp hm with hm | hm
    · exact h.asserts t hm
    · exact ha t hm

/-- A call makes its request of a disk at rest. -/
theorem Inv.requested (h : Inv tr a) (ht : t < a.nextTid) (hu : a.pc t = .user) (c : SectorCall)
    (hn : ∀ u < a.nextTid, waitingFor (a.pc u) = none) :
    Inv (tr ++ (a.data.call c).2.2.map (.act t))
      { a.goto t (a.data.call c).1 with data := (a.data.call c).2.1 } := by
  obtain ⟨hnone, hrest⟩ := h.resting hn
  unfold SynchDisk.call request acquire
  rw [if_neg (by simp [hrest.active])]
  split
  · rename_i data d' hok
    split at hok <;> cases hok
    refine ⟨.inr ⟨t, ht, a.data.requests, by simp [waitingFor], ?_, ?_⟩, ?_, ?_, ?_, ?_⟩
    · intro u hut
      simpa [hut] using hnone u
    · exact .busy rfl (by simp [hrest.pending]) hrest.value
    · intro u r hr
      by_cases hut : u = t
      · subst hut
        have hr : a.data.requests = r := by simpa [openRequest] using hr
        simp [hr]
      · exact List.mem_append_left _ (h.own u r (by simpa [hut] using hr))
    · intro u r data hr
      by_cases hut : u = t
      · subst hut
        simp at hr
      · exact h.passed u r data (by simpa [hut] using hr)
    · intro u r hm
      have hm : .act u (.returned r) ∈ tr := by simpa using hm
      exact (h.returned u r hm).imp (List.mem_append_left _) id
    · intro u hm
      exact h.asserts u (by simpa using hm)
  · rename_i e herr
    split at herr <;> cases herr
    have hm : Inv (tr ++ [.act t (.request a.data.requests), .act t (.assertFailed .inRange)]) a :=
      h.more (by simp) (by simp)
    refine hm.frame rfl rfl le_rfl fun u => ?_
    by_cases hut : u = t
    · subst hut
      exact .inr ⟨by simp [openRequest], .inl (by simp [hu, openRequest])⟩
    · exact .inl (by simp [hut])

/-- The interrupt of the request that is waited for. -/
theorem Inv.interrupt {r : ℕ} {d : SynchDisk} {s : SynchDiskSem} (h : Inv tr a)
    (hf : handleInterrupt r a.data = some (d, some s)) :
    Inv (tr ++ [.V none s]) { a.setValue s (incr (a.value s)) with data := d } := by
  unfold handleInterrupt at hf
  split at hf
  · rename_i hr
    cases hf
    rcases h.phase with ⟨-, hrest⟩ | ⟨t, ht, r', hw, hothers, hs⟩
    · simp [hrest.pending] at hr
    · cases hs with
      | done _ hp => simp [hp] at hr
      | busy ha hp hv =>
        obtain rfl : r = r' := by simpa [hp] using hr
        refine Inv.more ⟨.inr ⟨t, ht, r, hw, hothers, ?_⟩, h.own, ?_, ?_, h.asserts⟩ (by simp)
          (by simp)
        · exact .done rfl (by simp [hp]) (by simp [hv, incr]) (List.mem_cons_self ..)
        · exact fun u r data hu => List.mem_cons_of_mem _ (h.passed u r data hu)
        · exact fun u r hm => (h.returned u r hm).imp id (List.mem_cons_of_mem _)
  · cases hf

/-- `semaphore->P()` returns only to the thread whose request is done. -/
theorem Inv.pass {r : ℕ} {data : Sector} (h : Inv tr a) (hpc : a.pc t = .waiting r data)
    (hv : a.value .semaphore ≠ 0) :
    Inv (tr ++ [.P t .semaphore])
      ((a.setValue .semaphore (decr (a.value .semaphore))).goto t (.returning r data)) := by
  rcases h.phase with ⟨-, hrest⟩ | ⟨w, hw, r', hwait, hothers, hs⟩
  · exact absurd hrest.value hv
  · have htw : t = w := by
      by_contra hne
      have := hothers t hne
      simp [hpc, waitingFor] at this
    subst htw
    obtain rfl : r = r' := by simpa [hpc, waitingFor] using hwait
    cases hs with
    | busy _ _ h0 => exact absurd h0 hv
    | done ha hp h1 hc =>
      refine Inv.more ⟨.inl ⟨?_, ⟨ha, hp, by simp [h1, decr]⟩⟩, ?_, ?_, h.returned, h.asserts⟩
        (by simp) (by simp)
      · intro u
        by_cases hut : u = t
        · simp [hut, waitingFor]
        · simpa [hut] using hothers u hut
      · intro u r' hu
        by_cases hut : u = t
        · subst hut
          exact h.own u r' (by simpa [hpc, openRequest] using hu)
        · exact h.own u r' (by simpa [hut] using hu)
      · intro u r' data' hu
        by_cases hut : u = t
        · subst hut
          obtain ⟨rfl, -⟩ : r = r' ∧ data = data' := by simpa using hu
          exact hc
        · exact h.passed u r' data' (by simpa [hut] using hu)

theorem Inv.return {r : ℕ} {data : Sector} (h : Inv tr a) (hpc : a.pc t = .returning r data) :
    Inv (tr ++ [.act t (.returned r)]) (a.goto t .user) := by
  have hstill : ∀ u, waitingFor (a.pc u) = waitingFor ((a.goto t .user).pc u) := by
    intro u
    by_cases hut : u = t
    · subst hut
      simp [hpc, waitingFor]
    · simp [hut]
  have hphase := h.phase
  simp only [hstill] at hphase
  refine ⟨hphase, ?_, ?_, ?_, ?_⟩
  · intro u r' hu
    by_cases hut : u = t
    · simp [hut, openRequest] at hu
    · exact List.mem_append_left _ (h.own u r' (by simpa [hut] using hu))
  · intro u r' data' hu
    by_cases hut : u = t
    · simp [hut] at hu
    · exact h.passed u r' data' (by simpa [hut] using hu)
  · intro u r' hm
    rcases List.mem_append.mp hm with hm | hm
    · exact (h.returned u r' hm).imp (List.mem_append_left _) id
    · obtain ⟨rfl, rfl⟩ : u = t ∧ r' = r := by simpa using hm
      exact ⟨List.mem_append_left _ (h.own u r' (by simp [hpc, openRequest])),
        h.passed u r' data hpc⟩
  · intro u hm
    exact h.asserts u (by simpa using hm)

theorem inv_step (hs : DeviceStep (program storage) handleInterrupt a es b) (hG : NoOverlap a es)
    (h : Inv tr a) : Inv (tr ++ es) b := by
  cases hs with
  | signal hf => exact h.interrupt hf
  | quiet hf =>
    unfold handleInterrupt at hf
    split at hf <;> cases hf
  | thread hs =>
    cases hs with
    | @P t s k ht hc hv =>
      cases hpc : a.pc t <;> simp only [program, code, hpc] at hc <;> cases hc
      exact h.pass hpc hv
    | @V t s k ht hc =>
      cases hpc : a.pc t <;> simp only [program, code, hpc] at hc <;> cases hc
    | handler hd => cases hd
    | @yield t k ht hc =>
      refine (h.more (by simp) (by simp)).frame rfl rfl le_rfl fun u => ?_
      by_cases hut : u = t
      · subst hut
        cases hpc : a.pc u <;> simp only [program, code, hpc, reduceCtorEq, or_self] at hc
        all_goals
          obtain rfl : Pc.user = k := by simpa using hc
          exact .inr ⟨by simp [openRequest], .inl rfl⟩
      · exact .inl (by simp [hut])
    | @fork t child k setup ht hc =>
      cases hpc : a.pc t <;> simp only [program, code, hpc] at hc <;> cases hc
      refine (h.more (by simp) (by simp)).frame rfl rfl (Nat.le_succ _) fun u => ?_
      by_cases hut : u = t
      · subst hut
        exact .inr ⟨by simp [openRequest], .inl (by simp [hpc, openRequest])⟩
      · by_cases hun : u = a.nextTid
        · subst hun
          exact .inr ⟨by simp [hut, openRequest], .inr le_rfl⟩
        · exact .inl (by simp [hut, hun])
    | @act t f c k d es ht hc hf =>
      cases hpc : a.pc t <;> simp only [program, code, hpc] at hc <;> cases hc
      · cases c with
        | call c =>
          have hcall : a.data.call c = (k, d, es) := Option.some.inj hf
          have hreq : Ev.request a.data.requests ∈ (a.data.call c).2.2 := by
            unfold call
            split <;> simp
          rw [hcall] at hreq
          have hi := h.requested ht hpc c (hG ⟨t, _, List.mem_map_of_mem hreq⟩)
          rwa [hcall] at hi
        | _ =>
          cases hf
          refine (h.more (by simp) (by simp)).frame rfl rfl le_rfl fun u => ?_
          by_cases hut : u = t
          · subst hut
            exact .inr ⟨by simp [openRequest], .inl (by simp [hpc, openRequest])⟩
          · exact .inl (by simp [hut])
      · cases hf
        exact h.return hpc
    | hook hd =>
      cases hd <;> exact h.more (by simp) (by simp)

theorem inv_run
    (h : ((deviceAtomic (program storage) handleInterrupt).restrict NoOverlap).Run tr a) :
    Inv tr a := by
  refine h.invariant ?_ ?_
  · rintro a rfl
    exact ⟨.inl ⟨fun _ => rfl, ⟨rfl, rfl, rfl⟩⟩, by simp [program, Program.initial, openRequest],
      by simp [program, Program.initial], by simp, by simp⟩
  · intro tr a es b _ hi hs
    exact inv_step hs.1 hs.2 hi

/-- The disk has at most one request outstanding, `ASSERT(!active)` has never failed, and every
call that has returned made the request and had its interrupt handled before. -/
structure OneAtATime (tr : List (KEvent SynchDiskSem Ev)) (σ : Kernel SynchDiskSem Pc SynchDisk) :
    Prop where
  asserts : ∀ t, .sync (.act t (.assertFailed .notActive)) ∉ tr
  outstanding : σ.data.pending.length ≤ 1
  returned : ∀ t r, .sync (.act t (.returned r)) ∈ tr →
    .sync (.act t (.request r)) ∈ tr ∧ r ∈ σ.data.completed

/-- In every run in which no thread makes a request while another one waits for its own, the
disk serves one request at a time. -/
theorem one_request_at_a_time {tr : List (KEvent SynchDiskSem Ev)}
    {σ : Kernel SynchDiskSem Pc SynchDisk}
    (h : ((deviceKernel (program storage) handleInterrupt).restrict fun σ es =>
      NoOverlap σ.atomically (synced es)).Run tr σ) : OneAtATime tr σ := by
  have hi := inv_run (deviceAtomic_run_restrict (fun a he => by simp at he) h)
  refine ⟨fun t hm => hi.asserts t (mem_synced.mpr hm), ?_, fun t r hm => ?_⟩
  · rcases hi.phase with ⟨-, hr⟩ | ⟨t, -, r, -, -, hs⟩
    · have hp : σ.data.pending = [] := hr.pending
      simp [hp]
    · cases hs with
      | busy _ hp _ =>
        have hp : σ.data.pending = [r] := hp
        simp [hp]
      | done _ hp _ _ =>
        have hp : σ.data.pending = [] := hp
        simp [hp]
  · obtain ⟨hreq, hc⟩ := hi.returned t r (mem_synced.mpr hm)
    exact ⟨mem_synced.mp hreq, hc⟩

/-- A disk of zeros. -/
def zeros : Disk := fun _ => sectorOf []

/-- A thread reads a sector, sleeps until the interrupt comes, and returns. -/
theorem one_request_at_a_time_read : ∃ tr σ,
    ((deviceKernel (program zeros) handleInterrupt).restrict fun σ es =>
      NoOverlap σ.atomically (synced es)).Run tr σ ∧ OneAtATime tr σ ∧
    .sync (.act 0 (.returned 0)) ∈ tr ∧ σ.data.completed = [0] := by
  obtain ⟨tr, σ, hr, _, hp⟩ := System.exists_run_of_exec (Kernel.boot (program zeros))
    (System.guarded (Kernel.deviceNext (program zeros) handleInterrupt) fun σ es =>
      decide (NoOverlap σ.atomically (synced es)))
    (turns (Choice.call (.read 5)) 1 ++ turns Choice.tick 3 ++
      DeviceAct.device 0 :: turns Choice.tick 6)
    (fun r => decide (KEvent.sync (.act 0 (.returned 0)) ∈ r.2 ∧ r.1.data.completed = [0]))
    (by decide +kernel)
  obtain ⟨hreturned, hcompleted⟩ := of_decide_eq_true hp
  have hr := hr.of_guarded fun σ es hc => of_decide_eq_true hc
  exact ⟨tr, σ, hr, one_request_at_a_time hr, hreturned, hcompleted⟩

/-- A thread forks another and reads a sector. While it sleeps, the other one makes a request of
its own, and `ASSERT(!active)` fails; or it does so when the interrupt has come and the first has
not run yet, takes its wakeup, and returns with its own request outstanding. -/
theorem two_requests :
    (∃ tr σ, (deviceKernel (program zeros) handleInterrupt).Run tr σ ∧
      .sync (.act 1 (.assertFailed .notActive)) ∈ tr ∧ ¬OneAtATime tr σ) ∧
    ∃ tr σ, (deviceKernel (program zeros) handleInterrupt).Run tr σ ∧
      .sync (.act 1 (.returned 1)) ∈ tr ∧ σ.data.pending = [1] ∧ ¬OneAtATime tr σ := by
  constructor
  · obtain ⟨tr, σ, hr, _, hp⟩ := System.exists_run_of_exec (Kernel.boot (program zeros))
      (Kernel.deviceNext (program zeros) handleInterrupt)
      (turns Choice.fork 1 ++ turns Choice.tick 2 ++ turns (Choice.call (.read 5)) 1 ++
        turns Choice.tick 5 ++ turns (Choice.call (.read 6)) 1)
      (fun r => decide (KEvent.sync (.act 1 (.assertFailed .notActive)) ∈ r.2)) (by decide +kernel)
    have hp := of_decide_eq_true hp
    exact ⟨tr, σ, hr, hp, fun h => h.asserts 1 hp⟩
  · obtain ⟨tr, σ, hr, _, hp⟩ := System.exists_run_of_exec (Kernel.boot (program zeros))
      (Kernel.deviceNext (program zeros) handleInterrupt)
      (turns Choice.fork 1 ++ turns Choice.tick 2 ++ turns (Choice.call (.read 5)) 1 ++
        turns Choice.tick 4 ++ DeviceAct.device 0 :: turns Choice.tick 1 ++
        turns (Choice.call (.read 6)) 1 ++ turns Choice.tick 4)
      (fun r => decide (KEvent.sync (.act 1 (.returned 1)) ∈ r.2 ∧ r.1.data.pending = [1] ∧
        1 ∉ r.1.data.completed)) (by decide +kernel)
    obtain ⟨hreturned, hpending, hcompleted⟩ := of_decide_eq_true hp
    exact ⟨tr, σ, hr, hreturned, hpending, fun h => hcompleted (h.returned 1 1 hreturned).2⟩

end SynchDisk

end Nachos.Filesys
