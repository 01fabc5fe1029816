import Nachos.Machine.LoadDelay
import Nachos.Userprog.Context
import Nachos.Userprog.Exception

/-!
# The registers of user programs

What `DelayedLoad` relies on holds whatever programs are executed, whatever system calls they
make, and whenever interrupts and context switches come: instructions and `RaiseException` bring
it about, `InitRegisters` starts with it, and the kernel writes other registers only.
-/
namespace Nachos

open Concurrent
open Mips.Machine (Executes Completed Raised oneInstruction)
open Registers (Valid Special LoadReg)

variable {initial : ℕ → Int} {σ τ : Kernel SemId Pc Data} {tr es : List (KEvent SemId Ev)}
  {t : Tid} {d d' : Data} {pc k : Pc} {r r' : Registers}

/-- `r'` is what `ExceptionHandler` leaves of the registers `r` for some system call. -/
def Answers (r r' : Registers) : Prop :=
  ∃ (S : Type) (k : Services S) (fuel : ℕ) (s s' : S),
    k.exceptionHandler fuel .SyscallException (r, s) = some ((), r', s')

theorem Answers.valid (h : Answers r r') (hr : r.Valid) : r'.Valid := by
  obtain ⟨S, k, fuel, s, s', h⟩ := h
  simp only [Services.exceptionHandler] at h
  obtain ⟨type, s₁, hread, h⟩ := Command.bind_eq_some.mp h
  cases hread
  cases hh : k.handlerOf fuel (r 2).toNat with
  | some handler =>
    simp only [hh] at h
    obtain ⟨_, ⟨r₁, s₁⟩, hhandler, hinc⟩ := Command.bind_eq_some.mp h
    cases hinc
    have := k.keeps_handlerOf hh
    have honly := Command.Keeps.keeps (R := Services.OnlyResult) _ _ _ hhandler
    exact (hr.congr (honly 0 (by decide)) (honly LoadReg (by decide))).increaseProgramCounter
  | none =>
    simp only [hh] at h
    cases h
    exact hr

/-- User programs are executed by `OneInstruction`, and their system calls are answered by
`ExceptionHandler`. -/
structure Genuine (σ : Kernel SemId Pc Data) (es : List (KEvent SemId Ev)) : Prop where
  user : ∀ r, σ.pc σ.currentThread = .user → .sync (.act σ.currentThread (.left r)) ∈ es →
    Executes σ.data.registers r
  call : ∀ r, σ.pc σ.currentThread = .call → .sync (.act σ.currentThread (.left r)) ∈ es →
    Answers σ.data.registers r

/-- The registers are in order, those of the machine and those that are saved. -/
structure RegistersInv (σ : Kernel SemId Pc Data) : Prop where
  machine : σ.data.registers.Valid
  saved : ∀ t, t ≠ σ.currentThread ∨ σ.ctrl = .switched → σ.data.space t ≠ none →
    (σ.data.userRegisters t).Valid

/-- The code of a thread between two calls into the thread system. -/
theorem valid_of_act {f : Choice → Data → Option (Pc × Data × List Ev)} {c : Choice} {es : List Ev}
    (hc : code t pc = .act f) (hf : f c d = some (k, d', es)) (hd : d.registers.Valid)
    (huser : ∀ r, pc = .user → .left r ∈ es → Executes d.registers r)
    (hcall : ∀ r, pc = .call → .left r ∈ es → Answers d.registers r) : d'.registers.Valid := by
  have hl := localStep_of_code hc hf
  cases hl with
  | user r _ => exact (huser r rfl List.mem_cons_self).valid
  | callReturn r => exact (hcall r rfl List.mem_cons_self).valid hd
  | sysret r =>
    -- the result goes to register `2`
    simp only [code, sysretCode, Instr.act.injEq] at hc
    subst hc
    simp only [Option.some.injEq, Prod.mk.injEq] at hf
    obtain ⟨-, hreg, -⟩ := hf
    rw [← congrArg Data.registers hreg]
    exact (hd.writeRegister (by decide) (by decide) _).increaseProgramCounter
  | start => exact Registers.valid_initRegisters _
  | _ => exact hd

/-- The current thread goes on, or an interrupt comes: what is saved stays. -/
theorem RegistersInv.frame (h : RegistersInv σ) (hcur : τ.currentThread = σ.currentThread)
    (hτ : τ.ctrl ≠ .switched) (hvalid : τ.data.registers.Valid)
    (huser : τ.data.userRegisters = σ.data.userRegisters)
    (hspace : ∀ t ≠ σ.currentThread, τ.data.space t = σ.data.space t ∨ τ.data.space t = none) :
    RegistersInv τ := by
  refine ⟨hvalid, fun t ht hs => ?_⟩
  have htc : t ≠ σ.currentThread := by simpa [hcur, hτ] using ht
  rw [huser]
  refine h.saved t (.inl htc) ?_
  rcases hspace t htc with he | he
  · rwa [he] at hs
  · exact absurd he hs

theorem RegistersInv.same (h : RegistersInv σ) (hcur : τ.currentThread = σ.currentThread)
    (hτ : τ.ctrl ≠ .switched) (hdata : τ.data = σ.data) : RegistersInv τ :=
  h.frame hcur hτ (hdata ▸ h.machine) (by rw [hdata]) fun _ _ => .inl (by rw [hdata])

theorem RegistersInv.interrupt (h : RegistersInv σ) (hcur : τ.currentThread = σ.currentThread)
    (hτ : τ.ctrl ≠ .switched)
    (hdata : τ.data = { σ.data with registers := σ.data.registers.settle }) : RegistersInv τ :=
  h.frame hcur hτ (hdata ▸ Registers.valid_settle) (by rw [hdata]) fun _ _ => .inl (by rw [hdata])

/-- `SWITCH` to another thread. -/
theorem RegistersInv.dispatch (h : RegistersInv σ)
    (hdata : τ.data = saveUserState σ.currentThread σ.data) : RegistersInv τ := by
  have hmachine : τ.data.registers = σ.data.registers := by
    rw [hdata, saveUserState]
    split <;> rfl
  refine ⟨hmachine ▸ h.machine, fun t _ hs => ?_⟩
  rw [hdata] at hs ⊢
  unfold saveUserState at hs ⊢
  by_cases htc : t = σ.currentThread
  · subst htc
    split at hs
    · rename_i hnone
      exact absurd hnone hs
    · simpa using h.machine
  · split
    · rename_i hnone
      rw [hnone] at hs
      exact h.saved t (.inl htc) hs
    · rename_i a ha
      rw [ha] at hs
      simpa [htc] using h.saved t (.inl htc) hs

/-- Back in `Scheduler::Run`. -/
theorem RegistersInv.restore (h : RegistersInv σ) (hσ : σ.ctrl = .switched)
    (hdata : τ.data = restoreUserState σ.currentThread σ.data) : RegistersInv τ := by
  have huser : τ.data.userRegisters = σ.data.userRegisters ∧ τ.data.space = σ.data.space := by
    rw [hdata, restoreUserState]
    split <;> exact ⟨rfl, rfl⟩
  constructor
  · rw [hdata, restoreUserState]
    split
    · exact h.machine
    · rename_i a ha
      exact h.saved _ (.inr hσ) (by simp [ha])
  · intro t _ hs
    rw [huser.2] at hs
    rw [huser.1]
    exact h.saved t (.inr hσ) hs

theorem registersInv_step (hs : Kernel.Step (process initial) σ es τ) (hg : Genuine σ es)
    (h : RegistersInv σ) : RegistersInv τ := by
  cases hs with
  | enterP | tick | finish | block | idle | endIdle | endTick => exact h.same rfl (by simp) rfl
  | V | pass | yieldStay =>
    refine h.same ?_ (setLevel_returns _ _).2.2 ?_ <;> simp
  | root hr =>
    refine ⟨by simpa using h.machine, fun t _ hs => ?_⟩
    simpa using h.saved t (.inr hr) (by simpa using hs)
  | @fork child j setup hr hc =>
    obtain ⟨i, o, name, hpc, rfl, rfl, rfl⟩ := fork_of_code hc
    refine h.frame (by simp [Kernel.fork]) (setLevel_returns _ _).2.2
      (by simpa [Kernel.fork, Data.setObject] using h.machine)
      (by simp [Kernel.fork, Data.setObject]) fun t _ => ?_
    by_cases htn : t = σ.nextTid
    · exact .inr (by simp [Kernel.fork, htn])
    · exact .inl (by simp [Kernel.fork, Data.setObject, htn])
  | @act f c k d es hr hc hf =>
    have hmem : ∀ r, Ev.left r ∈ es → KEvent.sync (Event.act σ.currentThread (Ev.left r)) ∈
        es.map fun e => (.sync (.act σ.currentThread e) : KEvent SemId Ev) :=
      fun r hr => List.mem_map_of_mem hr
    have hvalid := valid_of_act hc hf h.machine (fun r hu he => hg.user r hu (hmem r he))
      fun r hu he => hg.call r hu (hmem r he)
    obtain ⟨huser, hspace⟩ := saved_of_localStep (localStep_of_code hc hf)
    exact h.frame rfl (by simp [hr]) hvalid huser fun t ht => .inl (hspace t ht)
  | yieldSwitch | wake => exact h.dispatch rfl
  | backInYield hr hc => exact h.restore hr (by simp [process])
  | backInP hr hc => exact h.restore hr rfl
  | handlerV hr hd =>
    exact h.interrupt (by simp) (by rcases hr with hr | hr <;> simp [hr]) rfl
  | handler hr b => exact h.interrupt rfl (by rcases hr with hr | hr <;> simp [hr]) rfl

theorem registersInv_run (h : ((kernel (process initial)).restrict Genuine).Run tr σ) :
    RegistersInv σ := by
  refine h.invariant (I := fun _ σ => RegistersInv σ) ?_ ?_
  · rintro σ rfl
    refine ⟨⟨rfl, ?_⟩, fun t _ hs => absurd rfl hs⟩
    show (0 : BitVec 32).toNat < 32
    decide
  · intro tr σ es τ _ hi hs
    exact registersInv_step (Kernel.step_of_kernel hs.1) hs.2 hi

/-- In every state of every run register `0` is zero and `LoadReg` has the number of one of the
thirty-two registers. Instructions, `RaiseException` and interrupts all call `DelayedLoad` with
that number, and it changes no other register. -/
theorem load_register (h : ((kernel (process initial)).restrict Genuine).Run tr σ) :
    σ.data.registers 0 = 0 ∧ (σ.data.registers LoadReg).toNat < 32 ∧
    (∀ debug memory, (oneInstruction debug ⟨σ.data.registers, memory⟩).Meets
      (Completed (σ.data.registers LoadReg)) (Raised (σ.data.registers LoadReg)) True) ∧
    (process initial).interrupt σ.data =
      { σ.data with registers := σ.data.registers.delayedLoad 0 0 } ∧
    ∀ (r : Registers) (n v : BitVec 32) (i : Fin NumTotalRegs),
      r LoadReg = σ.data.registers LoadReg → Special i → r.delayedLoad n v i = r i := by
  obtain ⟨hzero, hload⟩ := (registersInv_run h).machine
  refine ⟨hzero, hload, fun debug memory => ?_, rfl, fun r n v i hr hi => ?_⟩
  · exact Mips.Machine.oneInstruction_loads debug ⟨σ.data.registers, memory⟩
  · exact Registers.delayedLoad_special (hr ▸ hload) hi

/-- The registers after `LW r1,0(r0)`. -/
def afterLoad (r : Registers) : Option Registers :=
  match oneInstruction false (Mips.Machine.sample 0x8c010000 r) with
  | .done _ m => some m.registers
  | _ => none

theorem executes_afterLoad (h : afterLoad r = some r') : Executes r r' := by
  unfold afterLoad at h
  split at h
  · rename_i m hm
    cases h
    exact ⟨false, _, m, rfl, .inl hm⟩
  · cases h

/-- A program that only loads a word. -/
def loadsOnly (σ : Kernel SemId Pc Data) (es : List (KEvent SemId Ev)) : Bool :=
  match σ.pc σ.currentThread, es with
  | .user, [.sync (.act _ (.left r))] => decide (afterLoad σ.data.registers = some r)
  | .user, es | .call, es => es.isEmpty
  | _, _ => true

theorem genuine_of_loadsOnly (h : loadsOnly σ es = true) : Genuine σ es := by
  unfold loadsOnly at h
  split at h
  · rename_i u r hpc
    refine ⟨fun r' _ hr' => ?_, fun r' hcall => ?_⟩
    · simp only [List.mem_singleton, KEvent.sync.injEq, Event.act.injEq, Ev.left.injEq] at hr'
      obtain ⟨-, rfl⟩ := hr'
      exact executes_afterLoad (of_decide_eq_true h)
    · rw [hpc] at hcall
      cases hcall
  · cases List.isEmpty_iff.mp h
    exact ⟨fun _ _ hr => absurd hr List.not_mem_nil, fun _ _ hr => absurd hr List.not_mem_nil⟩
  · cases List.isEmpty_iff.mp h
    exact ⟨fun _ _ hr => absurd hr List.not_mem_nil, fun _ _ hr => absurd hr List.not_mem_nil⟩
  · rename_i huser hcall _
    exact ⟨fun _ hu _ => absurd hu huser, fun _ hc _ => absurd hc hcall⟩

/-- The program of the main thread executes its load. -/
def loadSchedule : Schedule :=
  let loaded := (afterLoad (Registers.initRegisters 2)).getD fun _ => 0
  bootSchedule ++ [.cpu { instruction := .ok loaded }] ++ cpu 2

theorem load_register_loading : ∃ tr σ,
    ((kernel quiet).restrict Genuine).Run tr σ ∧ σ.data.registers LoadReg = 1 ∧
      σ.data.registers 0 = 0 ∧ (σ.data.registers LoadReg).toNat < 32 := by
  obtain ⟨tr, σ, hr, -, hp⟩ := System.exists_run_of_exec (Kernel.boot quiet)
    (System.guarded (Kernel.next quiet) loadsOnly) loadSchedule
    (fun r => decide (r.1.data.registers LoadReg = 1)) (by decide +kernel)
  have hrun : ((kernel quiet).restrict Genuine).Run tr σ :=
    hr.of_guarded fun _ _ => genuine_of_loadsOnly
  obtain ⟨hzero, hload, -⟩ := load_register hrun
  exact ⟨tr, σ, hrun, of_decide_eq_true hp, hzero, hload⟩

end Nachos
