import Nachos.Lib.Lock
import Nachos.Userprog.Process

/-! What a thread of the system can do at each of its control points, said once. -/
namespace Nachos

open Concurrent

/-- Where the code calls `P`, and where it goes on. -/
inductive CallsP : Pc → SemId → Pc → Prop
  | construct {a : SpaceId} {h : NoffHeader} :
      CallsP (.construct a (.P h)) .addrLock (.construct a (.check h))
  | exec {name : String} : CallsP (.exec (.P name)) .bmsem (.exec (.check name))
  | execMultex {i : Int} {o : ObjectId} {name : String} :
      CallsP (.exec (.multexP i o name)) (.multex o) (.exec (.fork i o name))
  | joinInc {c : Int} {p : ObjectId} : CallsP (.join c (.incP p)) (.multex p) (.join c (.inc p))
  | joinWait {c : Int} {o : ObjectId} : CallsP (.join c (.wait o)) (.joinsem o) (.join c .read)
  | exitDec {e : Int} {p : ObjectId} : CallsP (.exit e (.decP p)) (.multex p) (.exit e (.dec p))
  | exitWait {e : Int} {o : ObjectId} : CallsP (.exit e (.wait o)) (.exitsem o) (.exit e .remove)
  | call {n : ℕ} : CallsP (.callP n) (.other n) .call

/-- Where the code calls `V`, and where it goes on. -/
inductive CallsV : Pc → SemId → Pc → Prop
  | constructFull {a : SpaceId} : CallsV (.construct a .VFull) .addrLock (.construct a .done)
  | construct {a : SpaceId} {h : NoffHeader} :
      CallsV (.construct a (.V h)) .addrLock (.construct a (.load h))
  | execMultex {i : Int} {o : ObjectId} {u : Tid} :
      CallsV (.exec (.multexV i o u)) (.multex o) (.exec (.V i (some u)))
  | exec {id : Int} {u : Option Tid} : CallsV (.exec (.V id u)) .bmsem (.exec (.ret id u))
  | joinInc {c : Int} {p : ObjectId} : CallsV (.join c (.incV p)) (.multex p) (.join c .lookup)
  | joinRelease {c : Int} {o : ObjectId} {e : Int} :
      CallsV (.join c (.release o e)) (.exitsem o) (.join c (.ret o e))
  | exitDec {e : Int} {p : ObjectId} : CallsV (.exit e (.decV p)) (.multex p) (.exit e .lookup)
  | exitRelease {e : Int} {o : ObjectId} :
      CallsV (.exit e (.release o)) (.joinsem o) (.exit e .lookupAgain)
  | call {n : ℕ} : CallsV (.callV n) (.other n) .call

/-- Where a user program may trap to. -/
inductive Traps : Pc → Prop
  | tick : Traps .tick
  | halted : Traps .halted
  | exit (e : Int) : Traps (.exit e .check)
  | exec (name : String) : Traps (.exec (.P name))
  | sysret : Traps (.sysret (-1))
  | join (c : Int) : Traps (.join c .check)
  | call : Traps .call

/-- The local actions of thread `t`: from a control point, with what is reported, to the
next one and the data it leaves. -/
inductive LocalStep (t : Tid) (d : Data) : Pc → List Ev → Pc → Data → Prop
  | noProgram {k : Pc} (hk : k = .startProcess ∨ k = .mainReturn) :
      LocalStep t d .startProcess [] k d
  | newSpace {pc k : Pc} (w n : BitVec 32) (hpc : pc = .startProcess ∨ ∃ id, pc = .startProcess2 id)
      (hk : k = .construct d.nextSpace .done ∨ (∃ h, k = .construct d.nextSpace (.P h)) ∨
        k = .halted) :
      LocalStep t d pc [] k
        { d.setAddrSpace d.nextSpace ⟨.wild w, n, []⟩ with nextSpace := d.nextSpace + 1 }
  | halt {pc : Pc} {es : List Ev} (hpc : ∀ a k, pc ≠ .construct a k)
      (hes : es = [] ∨ es = freeSpace d t) : LocalStep t d pc es .halted d
  | full {a : SpaceId} {h : NoffHeader} (hf : d.gPhysPageBitMap.numClear < h.numPages.toNat) :
      LocalStep t d (.construct a (.check h)) [] (.construct a .VFull)
        (d.setAddrSpace a { d.addrSpace a with numPages := 0 })
  | fits {a : SpaceId} {h : NoffHeader} (hf : h.numPages.toNat ≤ d.gPhysPageBitMap.numClear) :
      LocalStep t d (.construct a (.check h)) [.allocating h d.gPhysPageBitMap.numClear]
        (.construct a (.page h 0))
        (d.setAddrSpace a
          { d.addrSpace a with pageTable := .allocated a, numPages := h.numPages })
  | page {a : SpaceId} {h : NoffHeader} {i : ℕ} (hi : i < (d.addrSpace a).numPages.toNat) :
      LocalStep t d (.construct a (.page h i))
        [.find d.gPhysPageBitMap.find.1,
          .bzero (d.gPhysPageBitMap.find.1 * PageSize) PageSize]
        (.construct a (.page h (i + 1)))
        { d.setAddrSpace a
            { d.addrSpace a with
              entries := (d.addrSpace a).entries ++
                [⟨i, d.gPhysPageBitMap.find.1, true, false, false, false⟩] } with
          gPhysPageBitMap := d.gPhysPageBitMap.find.2 }
  | lastPage {a : SpaceId} {h : NoffHeader} {i : ℕ} (hi : (d.addrSpace a).numPages.toNat ≤ i) :
      LocalStep t d (.construct a (.page h i)) [] (.construct a (.V h)) d
  | load {a : SpaceId} {h : NoffHeader} (hs : h.Loads) :
      LocalStep t d (.construct a (.load h))
        ((h.reads (d.addrSpace a).entries).map fun r => .readAt r.1 r.2)
        (.construct a .done) d
  | loadFails {a : SpaceId} {h : NoffHeader} (hs : ¬h.Loads) :
      LocalStep t d (.construct a (.load h))
        ((h.reads (d.addrSpace a).entries).map fun r => .readAt r.1 r.2) .halted d
  | start {a : SpaceId} :
      LocalStep t d (.construct a .done)
        [.left (Registers.initRegisters (d.addrSpace a).numPages)] .user
        { d with
          space := Function.update d.space t (some a)
          registers := Registers.initRegisters (d.addrSpace a).numPages
          pageTable := (d.addrSpace a).pageTable
          pageTableSize := (d.addrSpace a).numPages }
  | user {k : Pc} (r : Registers) (hk : Traps k) :
      LocalStep t d .user [.left r] k { d with registers := r }
  | sysret {v : Int} (r : Registers) :
      LocalStep t d (.sysret v) [.left r] .tick { d with registers := r }
  | callReturn (r : Registers) : LocalStep t d .call [.left r] .tick { d with registers := r }
  | callSem {k : Pc} (hk : (∃ n, k = .callP n) ∨ ∃ n, k = .callV n) : LocalStep t d .call [] k d
  | execFail {name : String} :
      LocalStep t d (.exec (.check name)) [] (.exec (.V (-1) none)) d
  | execSlot {name : String} (x n : Int) (hi : 0 ≤ d.getFreeSlot) :
      LocalStep t d (.exec (.check name)) [] (.exec (.multexP d.getFreeSlot d.nextObject name))
        { d with
          pcb := Function.update d.pcb d.getFreeSlot (some d.nextObject)
          object := Function.update d.object d.nextObject ⟨d.processID t, none, x, n, name⟩
          nextObject := d.nextObject + 1 }
  | execRet {id : Int} {u : Option Tid} (threadName : Tid → Option String) :
      LocalStep t d (.exec (.ret id u)) [] (.sysret id) { d with threadName := threadName }
  | joinRefused {c : Int} : LocalStep t d (.join c .check) [] (.sysret (-1)) d
  | joinPassed {c : Int} {o p : ObjectId} (h0 : 0 ≤ c) (h1 : c < psize) (ho : d.pcb c = some o)
      (hpar : (d.object o).parentID = d.processID t) (hp : d.pcb (d.processID t) = some p) :
      LocalStep t d (.join c .check) [.joinPassed c o] (.join c (.incP p)) d
  | joinInc {c : Int} {p : ObjectId} :
      LocalStep t d (.join c (.inc p)) [] (.join c (.incV p))
        (d.setObject p fun b => { b with numwait := incr b.numwait })
  | joinLookup {c : Int} {o : ObjectId} (ho : d.pcb c = some o) :
      LocalStep t d (.join c .lookup) [] (.join c (.wait o)) d
  | joinRead {c : Int} {o : ObjectId} (ho : d.pcb c = some o) :
      LocalStep t d (.join c .read) [.exitCodeRead c o (d.object o).exitcode]
        (.join c (.release o (d.object o).exitcode)) d
  | joinRet {c : Int} {o : ObjectId} {e : Int} :
      LocalStep t d (.join c (.ret o e)) [.joinReturned c o e] (.sysret e) d
  | exitNoSlot {e : Int} (hp : d.pcb (d.processID t) = none) :
      LocalStep t d (.exit e .check) [] (.sysret (-1)) d
  | exitSet {e : Int} {o p : ObjectId} (h0 : d.processID t ≠ 0)
      (ho : d.pcb (d.processID t) = some o) (hp : d.pcb (d.object o).parentID = some p) :
      LocalStep t d (.exit e .check) [.exitCodeSet (d.processID t) o e] (.exit e (.decP p))
        (d.setObject o fun b => { b with exitcode := e })
  | exitDec {e : Int} {p : ObjectId} (n : Int) :
      LocalStep t d (.exit e (.dec p)) [] (.exit e (.decV p))
        (d.setObject p fun b => { b with numwait := n })
  | exitLookup {e : Int} {o : ObjectId} (ho : d.pcb (d.processID t) = some o) :
      LocalStep t d (.exit e .lookup) [] (.exit e (.release o)) d
  | exitLookupAgain {e : Int} {o : ObjectId} (ho : d.pcb (d.processID t) = some o) :
      LocalStep t d (.exit e .lookupAgain) [] (.exit e (.wait o)) d
  | removeNone {e : Int} (ho : d.pcb (d.processID t) = none) :
      LocalStep t d (.exit e .remove) [] (.sysret e) d
  | removeFinish {e : Int} {o : ObjectId} {u : Tid} (ho : d.pcb (d.processID t) = some o)
      (hu : (d.object o).thread = some u) :
      LocalStep t d (.exit e .remove) (.destroyed o :: freeSpace d u)
        (if u = t then .exit e .finish else .halted) d
  | removeClear {e : Int} {o : ObjectId} (ho : d.pcb (d.processID t) = some o)
      (hu : (d.object o).thread = none) :
      LocalStep t d (.exit e .remove) [.destroyed o] (.sysret e)
        { d with pcb := Function.update d.pcb (d.processID t) none }

variable {initial : ℕ → Int} {t : Tid} {pc k : Pc} {s : SemId}

theorem callsP_of_code (h : code t pc = .P s k) : CallsP pc s k := by
  cases pc with
  | construct a j =>
    cases j <;> simp [code, addrSpaceCode] at h
    obtain ⟨rfl, rfl⟩ := h
    exact .construct
  | exec j =>
    cases j <;> simp [code, execCode] at h <;> obtain ⟨rfl, rfl⟩ := h
    · exact .exec
    · exact .execMultex
  | join c j =>
    cases j <;> simp [code, joinCode] at h <;> obtain ⟨rfl, rfl⟩ := h
    · exact .joinInc
    · exact .joinWait
  | exit e j =>
    cases j <;> simp [code, exitCode] at h <;> obtain ⟨rfl, rfl⟩ := h
    · exact .exitDec
    · exact .exitWait
  | callP n =>
    simp [code] at h
    obtain ⟨rfl, rfl⟩ := h
    exact .call
  | _ => simp [code, userCode, callCode, sysretCode] at h

theorem callsV_of_code (h : code t pc = .V s k) : CallsV pc s k := by
  cases pc with
  | construct a j =>
    cases j <;> simp [code, addrSpaceCode] at h <;> obtain ⟨rfl, rfl⟩ := h
    · exact .constructFull
    · exact .construct
  | exec j =>
    cases j <;> simp [code, execCode] at h <;> obtain ⟨rfl, rfl⟩ := h
    · exact .execMultex
    · exact .exec
  | join c j =>
    cases j <;> simp [code, joinCode] at h <;> obtain ⟨rfl, rfl⟩ := h
    · exact .joinInc
    · exact .joinRelease
  | exit e j =>
    cases j <;> simp [code, exitCode] at h <;> obtain ⟨rfl, rfl⟩ := h
    · exact .exitDec
    · exact .exitRelease
  | callV n =>
    simp [code] at h
    obtain ⟨rfl, rfl⟩ := h
    exact .call
  | _ => simp [code, userCode, callCode, sysretCode] at h

variable {c : Choice} {d d' : Data} {es : List Ev} {f : Choice → Data → Option (Pc × Data × List Ev)}

theorem newSpace_of_code (hpc : pc = .startProcess ∨ ∃ id, pc = .startProcess2 id)
    (h : newAddrSpace c d = (k, d', es)) : LocalStep t d pc es k d' := by
  simp only [newAddrSpace] at h
  split at h
  · simp only [Prod.mk.injEq] at h
    obtain ⟨rfl, rfl, rfl⟩ := h
    exact .newSpace _ _ hpc (.inl rfl)
  split at h
  · simp only [Prod.mk.injEq] at h
    obtain ⟨rfl, rfl, rfl⟩ := h
    exact .newSpace _ _ hpc (.inr (.inl ⟨_, rfl⟩))
  · simp only [Prod.mk.injEq] at h
    obtain ⟨rfl, rfl, rfl⟩ := h
    exact .newSpace _ _ hpc (.inr (.inr rfl))

theorem construct_of_code {a : SpaceId} {j : AddrSpacePc} (hc : addrSpaceCode t a j = .act f)
    (hf : f c d = some (k, d', es)) : LocalStep t d (.construct a j) es k d' := by
  cases j <;> simp only [addrSpaceCode, reduceCtorEq, Instr.act.injEq] at hc <;> subst hc <;>
    simp only at hf
  case check h =>
    split at hf <;> simp only [Option.some.injEq, Prod.mk.injEq] at hf <;>
      obtain ⟨rfl, rfl, rfl⟩ := hf
    · exact .full ‹_›
    · exact .fits (not_lt.mp ‹_›)
  case page h i =>
    split at hf <;> simp only [Option.some.injEq, Prod.mk.injEq] at hf <;>
      obtain ⟨rfl, rfl, rfl⟩ := hf
    · exact .page ‹_›
    · exact .lastPage (not_lt.mp ‹_›)
  case load h =>
    simp only [Option.some.injEq, Prod.mk.injEq] at hf
    obtain ⟨rfl, rfl, rfl⟩ := hf
    by_cases hs : h.Loads
    · rw [if_pos hs]
      exact .load hs
    · rw [if_neg hs]
      exact .loadFails hs
  case done =>
    simp only [Option.some.injEq, Prod.mk.injEq] at hf
    obtain ⟨rfl, rfl, rfl⟩ := hf
    exact .start

theorem user_of_code (hc : userCode = .act f) (hf : f c d = some (k, d', es)) :
    LocalStep t d .user es k d' := by
  simp only [userCode, Instr.act.injEq] at hc
  subst hc
  simp only at hf
  split at hf <;> simp only [Option.some.injEq, Prod.mk.injEq] at hf <;>
    obtain ⟨rfl, rfl, rfl⟩ := hf
  · exact .user _ .tick
  · exact .halt (by simp) (.inl rfl)
  · refine .user _ ?_
    split
    · exact .halted
    · exact .exit _
    · split
      · exact .exec _
      · exact .sysret
    · exact .join _
    · exact .call

theorem call_of_code (hc : callCode = .act f) (hf : f c d = some (k, d', es)) :
    LocalStep t d .call es k d' := by
  simp only [callCode, Instr.act.injEq] at hc
  subst hc
  simp only at hf
  split at hf <;> simp only [Option.some.injEq, Prod.mk.injEq] at hf <;>
    obtain ⟨rfl, rfl, rfl⟩ := hf
  · exact .callSem (.inl ⟨_, rfl⟩)
  · exact .callSem (.inr ⟨_, rfl⟩)
  · exact .callReturn _
  · exact .halt (by simp) (.inl rfl)

theorem exec_of_code {j : ExecPc} (hc : execCode t j = .act f)
    (hf : f c d = some (k, d', es)) : LocalStep t d (.exec j) es k d' := by
  cases j <;> simp only [execCode, reduceCtorEq, Instr.act.injEq] at hc <;> subst hc <;>
    simp only at hf
  case check name =>
    split at hf <;> simp only [Option.some.injEq, Prod.mk.injEq] at hf <;>
      obtain ⟨rfl, rfl, rfl⟩ := hf
    · exact .execFail
    · rename_i hn
      simp only [Bool.or_eq_true, decide_eq_true_eq, not_or, not_lt] at hn
      exact .execSlot _ _ hn.2
  case ret id u =>
    simp only [Option.some.injEq, Prod.mk.injEq] at hf
    obtain ⟨rfl, rfl, rfl⟩ := hf
    exact .execRet _

theorem join_of_code {i : Int} {j : JoinPc} (hc : joinCode t i j = .act f)
    (hf : f c d = some (k, d', es)) : LocalStep t d (.join i j) es k d' := by
  cases j <;> simp only [joinCode, reduceCtorEq, Instr.act.injEq] at hc <;> subst hc
  case check =>
    simp only at hf
    split at hf
    · simp only [Option.some.injEq, Prod.mk.injEq] at hf
      obtain ⟨rfl, rfl, rfl⟩ := hf
      exact .joinRefused
    rename_i hr
    rw [not_or, not_lt, not_le] at hr
    split at hf
    · simp only [Option.some.injEq, Prod.mk.injEq] at hf
      obtain ⟨rfl, rfl, rfl⟩ := hf
      exact .joinRefused
    rename_i o ho
    split at hf
    · simp only [Option.some.injEq, Prod.mk.injEq] at hf
      obtain ⟨rfl, rfl, rfl⟩ := hf
      exact .joinRefused
    rename_i hpar
    rw [not_not] at hpar
    split at hf <;> simp only [Option.some.injEq, Prod.mk.injEq] at hf <;>
      obtain ⟨rfl, rfl, rfl⟩ := hf
    · exact .halt (by simp) (.inl rfl)
    · exact .joinPassed hr.1 hr.2 ho hpar (by rwa [hpar] at *)
  case lookup | read =>
    simp only at hf
    split at hf <;> simp only [Option.some.injEq, Prod.mk.injEq] at hf <;>
      obtain ⟨rfl, rfl, rfl⟩ := hf
    · exact .halt (by simp) (.inl rfl)
    · constructor
      assumption
  case inc p =>
    simp only [Option.some.injEq, Prod.mk.injEq] at hf
    obtain ⟨rfl, rfl, rfl⟩ := hf
    exact .joinInc
  case ret o e =>
    simp only [Option.some.injEq, Prod.mk.injEq] at hf
    obtain ⟨rfl, rfl, rfl⟩ := hf
    exact .joinRet

theorem exit_of_code {e : Int} {j : ExitPc} (hc : exitCode t e j = .act f)
    (hf : f c d = some (k, d', es)) : LocalStep t d (.exit e j) es k d' := by
  cases j <;> simp only [exitCode, reduceCtorEq, Instr.act.injEq] at hc <;> subst hc <;>
    simp only at hf
  case check =>
    split at hf
    · simp only [Option.some.injEq, Prod.mk.injEq] at hf
      obtain ⟨rfl, rfl, rfl⟩ := hf
      exact .halt (by simp) (.inr rfl)
    split at hf
    · simp only [Option.some.injEq, Prod.mk.injEq] at hf
      obtain ⟨rfl, rfl, rfl⟩ := hf
      exact .exitNoSlot ‹_›
    split at hf <;> simp only [Option.some.injEq, Prod.mk.injEq] at hf <;>
      obtain ⟨rfl, rfl, rfl⟩ := hf
    · exact .halt (by simp) (.inl rfl)
    · exact .exitSet ‹_› ‹_› ‹_›
  case lookup | lookupAgain =>
    split at hf <;> simp only [Option.some.injEq, Prod.mk.injEq] at hf <;>
      obtain ⟨rfl, rfl, rfl⟩ := hf
    · exact .halt (by simp) (.inl rfl)
    · constructor
      assumption
  case dec p =>
    simp only [Option.some.injEq, Prod.mk.injEq] at hf
    obtain ⟨rfl, rfl, rfl⟩ := hf
    by_cases hn : (d.object p).numwait = 0
    · have : d.setObject p (fun b => if b.numwait ≠ 0 then { b with numwait := decr b.numwait }
          else b) = d.setObject p fun b => { b with numwait := 0 } := by
        simp only [Data.setObject, hn, ne_eq, not_true_eq_false, if_false]
        rw [← hn]
      rw [this]
      exact .exitDec 0
    · have : d.setObject p (fun b => if b.numwait ≠ 0 then { b with numwait := decr b.numwait }
          else b) = d.setObject p fun b => { b with numwait := decr (d.object p).numwait } := by
        simp only [Data.setObject, ne_eq, hn, not_false_eq_true, if_true]
      rw [this]
      exact .exitDec _
  case remove =>
    split at hf
    · simp only [Option.some.injEq, Prod.mk.injEq] at hf
      obtain ⟨rfl, rfl, rfl⟩ := hf
      exact .removeNone ‹_›
    split at hf <;> simp only [Option.some.injEq, Prod.mk.injEq] at hf <;>
      obtain ⟨rfl, rfl, rfl⟩ := hf
    · exact .removeFinish ‹_› ‹_›
    · exact .removeClear ‹_› ‹_›

/-- Every local action of the code is one of the listed ones. -/
theorem localStep_of_code (hc : code t pc = .act f) (hf : f c d = some (k, d', es)) :
    LocalStep t d pc es k d' := by
  cases pc with
  | startProcess =>
    simp only [code, Instr.act.injEq] at hc
    subst hc
    simp only at hf
    split at hf <;> simp only [Option.some.injEq] at hf
    · exact newSpace_of_code (.inl rfl) hf
    · simp only [Prod.mk.injEq] at hf
      obtain ⟨rfl, rfl, rfl⟩ := hf
      exact .noProgram (by split <;> simp)
  | startProcess2 id =>
    simp only [code, Instr.act.injEq] at hc
    subst hc
    simp only at hf
    split at hf <;> simp only [Option.some.injEq] at hf
    · simp only [Prod.mk.injEq] at hf
      obtain ⟨rfl, rfl, rfl⟩ := hf
      exact .halt (by simp) (.inl rfl)
    · exact newSpace_of_code (.inr ⟨_, rfl⟩) hf
  | construct a j => exact construct_of_code hc hf
  | user => exact user_of_code hc hf
  | exec j => exact exec_of_code hc hf
  | join i j => exact join_of_code hc hf
  | exit e j => exact exit_of_code hc hf
  | call => exact call_of_code hc hf
  | sysret r =>
    simp only [code, sysretCode, Instr.act.injEq] at hc
    subst hc
    simp only [Option.some.injEq, Prod.mk.injEq] at hf
    obtain ⟨rfl, rfl, rfl⟩ := hf
    exact .sysret _
  | mainReturn | tick | callP n | callV n | halted => simp [code] at hc

theorem tick_of_code (h : code t pc = .yield k ∨ code t pc = .tick k) : k = .user ∧ pc = .tick := by
  cases pc with
  | construct a j => cases j <;> simp [code, addrSpaceCode] at h
  | exec j => cases j <;> simp [code, execCode] at h
  | join c j => cases j <;> simp [code, joinCode] at h
  | exit e j => cases j <;> simp [code, exitCode] at h
  | tick => simpa [code, eq_comm] using h
  | _ => simp [code, userCode, callCode, sysretCode] at h

theorem fork_of_code {child : Pc} {j : Tid → Pc} {setup : Tid → Data → Data}
    (h : code t pc = .fork child j setup) : ∃ i o name, pc = .exec (.fork i o name) ∧
      child = .startProcess2 i ∧ j = (fun u => .exec (.multexV i o u)) ∧
      setup = fun u d =>
        { d.setObject o fun b => { b with thread := some u, parentID := d.processID t } with
          processID := Function.update d.processID u i
          threadName := Function.update d.threadName u (some name)
          space := Function.update d.space u none } := by
  cases pc with
  | construct a j => cases j <;> simp [code, addrSpaceCode] at h
  | exec j =>
    cases j <;> simp only [code, execCode, reduceCtorEq, Instr.fork.injEq] at h
    obtain ⟨rfl, rfl, rfl⟩ := h
    exact ⟨_, _, _, rfl, rfl, rfl, rfl⟩
  | join c j => cases j <;> simp [code, joinCode] at h
  | exit e j => cases j <;> simp [code, exitCode] at h
  | _ => simp [code, userCode, callCode, sysretCode] at h

/-- The atomic steps of the system. -/
inductive ProcessStep (a : State SemId Pc Data) :
    List (Event SemId Ev) → State SemId Pc Data → Prop
  | P {t : Tid} {s : SemId} {k : Pc} (ht : t < a.nextTid) (hc : CallsP (a.pc t) s k)
      (hv : a.value s ≠ 0) :
      ProcessStep a [.P t s] ((a.setValue s (decr (a.value s))).goto t k)
  | V {t : Tid} {s : SemId} {k : Pc} (ht : t < a.nextTid) (hc : CallsV (a.pc t) s k) :
      ProcessStep a [.V (some t) s] ((a.setValue s (incr (a.value s))).goto t k)
  | handler {n : ℕ} :
      ProcessStep a [.V none (.other n)] (a.setValue (.other n) (incr (a.value (.other n))))
  | tick {t : Tid} (ht : t < a.nextTid) (hc : a.pc t = .tick) :
      ProcessStep a [] (a.goto t .user)
  | fork {t : Tid} {i : Int} {o : ObjectId} {name : String} (ht : t < a.nextTid)
      (hc : a.pc t = .exec (.fork i o name)) :
      ProcessStep a []
        { (a.goto a.nextTid (.startProcess2 i)).goto t (.exec (.multexV i o a.nextTid)) with
          nextTid := a.nextTid + 1
          data := { a.data.setObject o fun b =>
              { b with thread := some a.nextTid, parentID := a.data.processID t } with
            processID := Function.update a.data.processID a.nextTid i
            threadName := Function.update a.data.threadName a.nextTid (some name)
            space := Function.update a.data.space a.nextTid none } }
  | act {t : Tid} {k : Pc} {d : Data} {es : List Ev} (ht : t < a.nextTid)
      (hl : LocalStep t a.data (a.pc t) es k d) :
      ProcessStep a (es.map (.act t)) { a.goto t k with data := d }
  /-- A context switch or an interrupt touches only the machine and saved registers. -/
  | hook (userRegisters : Tid → Registers) (registers : Registers) (pageTable : PageTable)
      (pageTableSize : BitVec 32) :
      ProcessStep a []
        { a with data := { a.data with userRegisters, registers, pageTable, pageTableSize } }

variable {a b : State SemId Pc Data} {evs : List (Event SemId Ev)}

theorem processStep_of_hook {d : Data} (h : (process initial).Hook a.data d) :
    ProcessStep a [] { a with data := d } := by
  cases h with
  | switchOut t =>
    simp only [process, saveUserState]
    split
    · exact .hook a.data.userRegisters a.data.registers a.data.pageTable a.data.pageTableSize
    · exact .hook _ a.data.registers a.data.pageTable a.data.pageTableSize
  | switchIn t =>
    simp only [process, restoreUserState]
    split
    · exact .hook a.data.userRegisters a.data.registers a.data.pageTable a.data.pageTableSize
    · exact .hook a.data.userRegisters _ _ _
  | interrupt => exact .hook a.data.userRegisters _ a.data.pageTable a.data.pageTableSize

theorem processStep_of_step (h : Step (process initial) a evs b) : ProcessStep a evs b := by
  cases h with
  | P ht hc hv => exact .P ht (callsP_of_code hc) hv
  | V ht hc => exact .V ht (callsV_of_code hc)
  | @handler s hd =>
    cases s <;> simp only [process, Bool.false_eq_true] at hd
    exact .handler
  | @yield t k ht hc =>
    obtain ⟨rfl, hpc⟩ := tick_of_code hc
    exact .tick ht hpc
  | @fork t child k setup ht hc =>
    obtain ⟨i, o, name, hpc, rfl, rfl, rfl⟩ := fork_of_code hc
    exact .fork ht hpc
  | act ht hc hf => exact .act ht (localStep_of_code hc hf)
  | hook hd => exact processStep_of_hook hd

/-! ## The steps of one thread -/

/-- The thread an event is by. -/
def thread? : Event SemId Ev → Option Tid
  | .P t _ | .act t _ => some t
  | .V t _ => t

/-- A step of thread `v` from one control point to another. -/
inductive Move (d : Data) (v : Tid) : List (Event SemId Ev) → Pc → Pc → Prop
  | P {s : SemId} {pc k : Pc} (hc : CallsP pc s k) : Move d v [.P v s] pc k
  | V {s : SemId} {pc k : Pc} (hc : CallsV pc s k) : Move d v [.V (some v) s] pc k
  | tick : Move d v [] .tick .user
  | fork {i : Int} {o : ObjectId} {u : Tid} {name : String} :
      Move d v [] (.exec (.fork i o name)) (.exec (.multexV i o u))
  | act {es : List Ev} {d' : Data} {pc k : Pc} (hl : LocalStep v d pc es k d') :
      Move d v (es.map (.act v)) pc k

/-- What a step means for thread `v`: it is at rest, it is new, or the step is its own. -/
inductive Moved (a : State SemId Pc Data) (evs : List (Event SemId Ev)) (b : State SemId Pc Data)
    (v : Tid) : Prop
  | rest (hv : v < b.nextTid → v < a.nextTid) (hpc : b.pc v = a.pc v)
      (hes : ∀ e ∈ evs, thread? e ≠ some v)
  | new {i : Int} (hv : v = a.nextTid) (hpc : b.pc v = .startProcess2 i) (hes : evs = [])
  | own (hv : v < a.nextTid) (hm : Move a.data v evs (a.pc v) (b.pc v))

theorem moved_of_step (hs : ProcessStep a evs b) (v : Tid) : Moved a evs b v := by
  cases hs with
  | @P t s k ht hc hv =>
    by_cases hvt : v = t
    · subst hvt
      exact .own ht (by simpa using .P hc)
    · exact .rest id (by simp [hvt]) (by simpa [thread?] using Ne.symm hvt)
  | @V t s k ht hc =>
    by_cases hvt : v = t
    · subst hvt
      exact .own ht (by simpa using .V hc)
    · exact .rest id (by simp [hvt]) (by simpa [thread?] using Ne.symm hvt)
  | handler => exact .rest id rfl (by simp [thread?])
  | @tick t ht hc =>
    by_cases hvt : v = t
    · subst hvt
      exact .own ht (by simpa [hc] using .tick)
    · exact .rest id (by simp [hvt]) (by simp)
  | @fork t i o name ht hc =>
    by_cases hvt : v = t
    · subst hvt
      exact .own ht (by simpa [hc] using .fork)
    · by_cases hvn : v = a.nextTid
      · exact .new (i := i) hvn (by simp [hvn, ht.ne']) rfl
      · exact .rest (fun h => lt_of_le_of_ne (Nat.lt_succ_iff.mp h) hvn) (by simp [hvt, hvn]) (by simp)
  | @act t k d es ht hl =>
    by_cases hvt : v = t
    · subst hvt
      exact .own ht (by simpa using .act hl)
    · exact .rest id (by simp [hvt]) (by simp [thread?, Ne.symm hvt])
  | hook => exact .rest id rfl (by simp)

/-- Enough to check that the code uses `s` as a lock on the control points `inside`. -/
theorem lock_of_steps {s : SemId} {inside : Pc → Bool} (hv : (process initial).value s = 1)
    (hd : (process initial).device s = false)
    (hstart : inside .startProcess = false ∧ ∀ i, inside (.startProcess2 i) = false)
    (htick : inside .user = inside .tick)
    (hP : ∀ {s' pc k}, CallsP pc s' k →
      if s' = s then inside pc = false ∧ inside k = true else inside k = inside pc)
    (hV : ∀ {s' pc k}, CallsV pc s' k →
      if s' = s then inside pc = true ∧ inside k = false else inside k = inside pc)
    (hfork : ∀ i o name u, inside (.exec (.multexV i o u)) = inside (.exec (.fork i o name)))
    (hact : ∀ {t d pc es k d'}, LocalStep t d pc es k d' → k ≠ .halted → inside k = inside pc)
    (hhalt : ∀ {t d d' pc es c f}, code t pc = .act f → f c d = some (.halted, d', es) →
      inside .halted = inside pc) : (process initial).Lock s inside where
  value := hv
  start := hstart.1
  device := hd
  code t pc := by
    show (code t pc).Brackets s inside pc
    cases hc : code t pc with
    | P s' k => exact hP (callsP_of_code hc)
    | V s' k => exact hV (callsV_of_code hc)
    | yield k =>
      obtain ⟨rfl, rfl⟩ := tick_of_code (.inl hc)
      exact htick
    | tick k =>
      obtain ⟨rfl, rfl⟩ := tick_of_code (.inr hc)
      exact htick
    | fork child k setup =>
      obtain ⟨i, o, name, rfl, rfl, rfl, rfl⟩ := fork_of_code hc
      exact ⟨hstart.2 i, hfork i o name⟩
    | act f =>
      intro c d k d' es hf
      by_cases hk : k = .halted
      · subst hk
        exact hhalt hc hf
      · exact hact (localStep_of_code hc hf) hk
    | finish => trivial
    | stop => trivial

end Nachos
