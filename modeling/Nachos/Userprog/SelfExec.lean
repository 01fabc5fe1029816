import Nachos.Userprog.History

/-!
# The check against self-execution

`ExecUpdate` refuses a file name that is the name of the running thread. That name is only
there for debugging: the main thread is called `main` whatever program `StartProcess` runs in
it, and the thread of an executed process is named by the string `Exception_Exec` has read
from user memory, which it deletes when `ExecUpdate` returns.
-/
namespace Nachos

open Concurrent

inductive NameNote
  /-- `StartProcess(filename)` has opened the file, or `StartProcess_2` has asked for it. -/
  | runs (t : Tid) (filename : String)
  /-- `delete[] name`, of the string thread `u` is named by. -/
  | deleted (u : Tid)
  deriving DecidableEq

def nameAct (t : Tid) (pc : Pc) (c : Choice) (d : Data) : List NameNote :=
  match pc with
  | .startProcess => if c.opened then [.runs t c.name] else []
  | .startProcess2 id => (d.getFileName id).toList.map (.runs t)
  | .exec (.ret _ u) => u.toList.map .deleted
  | _ => []

def nameNotes : Notes Pc Data Choice NameNote where
  act := nameAct
  fork _ _ _ := []

/-- The system, with notes of the programs that are started and the names that are deleted. -/
def namedProcess (initial : ℕ → Int) : Program SemId Pc (Data × List NameNote) Ev Choice :=
  (process initial).noting nameNotes

/-- `ExecUpdate(name)` of thread `t`, at its checks, goes on to return `-1`. -/
def Refused (t : Tid) (name : String) (c : Choice) (d : Data) : Prop :=
  ∃ f es, code t (.exec (.check name)) = .act f ∧ f c d = some (.exec (.V (-1) none), d, es)

/-- A call of `ExecUpdate(name)` that finds the file is refused exactly if `name` is the
program of the calling process. -/
def ChecksSelf (d : Data) (t : Tid) (name program : String) : Prop :=
  ∀ c : Choice, c.opened = true → (Refused t name c d ↔ name = program)

/-- The name of the thread tells the program from `name`. -/
def NameTells (ns : List NameNote) (t : Tid) (name program : String) : Prop :=
  if t = 0 then program = "main" ∨ (name ≠ "main" ∧ name ≠ program) else .deleted t ∉ ns

variable {initial : ℕ → Int} {t u v : Tid} {pc k : Pc} {c : Choice} {d d' : Data} {es : List Ev}
  {f : Choice → Data → Option (Pc × Data × List Ev)} {name program : String}

/-- With the file and a slot there, only the comparison of the names can refuse. -/
theorem refused_iff (hc : c.opened = true) (hslot : 0 ≤ d.getFreeSlot) :
    Refused t name c d ↔ d.isNamed t name c.sameName = true := by
  constructor
  · rintro ⟨f, es, hf, h⟩
    simp only [code, execCode, Instr.act.injEq] at hf
    subst hf
    by_contra hn
    simp [hc, hn, not_lt.mpr hslot] at h
  · intro hn
    refine ⟨_, [], rfl, ?_⟩
    simp [hn]

/-! ## What the threads have in hand -/

section Hand

variable {a b : State SemId Pc Data} {tr es' : List (Event SemId Ev)}

/-- What a thread at a control point goes by: its own process, the name in the `PCB` it is
making, and the thread it has made. `n` threads have been made so far. -/
def Pc.InHand (d : Data) (n : ℕ) (t : Tid) : Pc → Prop
  | .startProcess => t = 0
  | .startProcess2 id => d.processID t = id
  | .exec (.multexP _ o name) | .exec (.fork _ o name) => (d.object o).name = name
  | .exec (.multexV _ _ u) | .exec (.V _ (some u)) | .exec (.ret _ (some u)) => 0 < u ∧ u < n
  | _ => True

theorem Pc.InHand.kept (h : pc.InHand a.data a.nextTid t) (ht : t < a.nextTid)
    (hl : pc.Looked a.data t) (hi : TableInv a) (hk : Kept a b) :
    pc.InHand b.data b.nextTid t := by
  cases pc with
  | startProcess => exact h
  | startProcess2 id => exact (hk.processID t ht).trans h
  | exec j =>
    cases j with
    | multexP i o n | fork i o n => exact (hk.name o (hi.slot i o hl.2.2.1).2.2).trans h
    | multexV i o u => exact ⟨h.1, lt_of_lt_of_le h.2 hk.nextTid⟩
    | V i u | ret i u =>
      cases u with
      | none => trivial
      | some u => exact ⟨h.1, lt_of_lt_of_le h.2 hk.nextTid⟩
    | _ => trivial
  | _ => trivial

theorem inHand_of_localStep {n : ℕ} (hl : LocalStep t d pc es k d') (h : pc.InHand d n t) :
    k.InHand d' n t := by
  cases hl with
  | noProgram hk =>
    rcases hk with rfl | rfl
    · exact h
    · trivial
  | newSpace w m hpc hk => rcases hk with rfl | ⟨_, rfl⟩ | rfl <;> trivial
  | user r hk => cases hk <;> trivial
  | callSem hk => rcases hk with ⟨_, rfl⟩ | ⟨_, rfl⟩ <;> trivial
  | execSlot x m hi => simp [Pc.InHand]
  | removeFinish ho hu => split <;> trivial
  | _ => trivial

theorem inHand_of_callsP {s : SemId} {n : ℕ} (hc : CallsP pc s k) (h : pc.InHand d n t) :
    k.InHand d n t := by
  cases hc with
  | execMultex => exact h
  | _ => trivial

theorem inHand_of_callsV {s : SemId} {n : ℕ} (hc : CallsV pc s k) (h : pc.InHand d n t) :
    k.InHand d n t := by
  cases hc with
  | execMultex => exact h
  | @exec i u =>
    cases u with
    | none => trivial
    | some u => exact h
  | _ => trivial

/-- One thread moves, and nothing is taken from the others. -/
theorem inHand_goto (hpc : b.pc = Function.update a.pc t k) (htid : b.nextTid = a.nextTid)
    (hk : k.InHand b.data b.nextTid t)
    (hrest : ∀ v < a.nextTid, (a.pc v).InHand b.data b.nextTid v) :
    ∀ v < b.nextTid, (b.pc v).InHand b.data b.nextTid v := by
  intro v hv
  rw [hpc]
  by_cases hvt : v = t
  · subst hvt
    simpa using hk
  · simpa [hvt] using hrest v (htid ▸ hv)

theorem inHand_step (hs : ProcessStep a es' b) (hi : TableInv a)
    (h : ∀ t < a.nextTid, (a.pc t).InHand a.data a.nextTid t) :
    ∀ v < b.nextTid, (b.pc v).InHand b.data b.nextTid v := by
  have hk := kept_of_step hs hi
  have hrest : ∀ v < a.nextTid, (a.pc v).InHand b.data b.nextTid v :=
    fun v hv => (h v hv).kept hv (hi.looked v hv) hi hk
  cases hs with
  | @P t s k ht hc hs => exact inHand_goto rfl rfl (inHand_of_callsP hc (hrest t ht)) hrest
  | @V t s k ht hc => exact inHand_goto rfl rfl (inHand_of_callsV hc (hrest t ht)) hrest
  | handler | hook => exact hrest
  | tick => exact inHand_goto rfl rfl trivial hrest
  | @act t k d es ht hl =>
    exact inHand_goto rfl rfl (inHand_of_localStep hl (h t ht)) hrest
  | @fork t i o name ht hc =>
    intro v hv
    by_cases hvt : v = t
    · subst hvt
      simpa [Pc.InHand] using Nat.zero_lt_of_lt ht
    · by_cases hvn : v = a.nextTid
      · subst hvn
        simp [Pc.InHand, hvt]
      · have := hrest v (lt_of_le_of_ne (Nat.lt_succ_iff.mp hv) hvn)
        simpa [hvt, hvn] using this

theorem inHand_run (h : (atomic (process initial)).Run tr a) :
    ∀ t < a.nextTid, (a.pc t).InHand a.data a.nextTid t := by
  refine h.invariant (I := fun _ a => ∀ t < a.nextTid, (a.pc t).InHand a.data a.nextTid t) ?_ ?_
  · rintro a rfl t ht
    exact Nat.lt_one_iff.mp ht
  · intro tr a es b hr hi hs
    exact inHand_step (processStep_of_step hs) (table_run hr) hi

end Hand

/-! ## Names and programs -/

/-- The thread has not started a program yet. -/
def Pc.starting : Pc → Bool
  | .startProcess | .mainReturn | .startProcess2 _ => true
  | _ => false

theorem CallsP.starting {s : SemId} (h : CallsP pc s k) : k.starting = pc.starting := by
  cases h <;> rfl

theorem CallsV.starting {s : SemId} (h : CallsV pc s k) : k.starting = pc.starting := by
  cases h <;> rfl

theorem starting_newAddrSpace (h : newAddrSpace c d = (k, d', es)) :
    k.starting = false ∧ d'.threadName = d.threadName := by
  unfold newAddrSpace at h
  split at h
  · cases h
    exact ⟨rfl, rfl⟩
  split at h <;> cases h <;> exact ⟨rfl, rfl⟩

/-- Only `delete[] name` and `Fork` change what a thread is named by. -/
theorem threadName_of_localStep (hl : LocalStep t d pc es k d')
    (hret : ∀ id u, pc ≠ .exec (.ret id u)) : d'.threadName = d.threadName := by
  cases hl with
  | execRet => exact absurd rfl (hret _ _)
  | _ => rfl

theorem threadName_of_hook (h : (process initial).Hook d d') : d'.threadName = d.threadName := by
  cases h with
  | switchOut t =>
    simp only [process, saveUserState]
    split <;> rfl
  | switchIn t =>
    simp only [process, restoreUserState]
    split <;> rfl
  | interrupt => rfl

theorem starting_of_localStep (hl : LocalStep t d pc es k d') (hpc : pc.starting = false) :
    k.starting = false := by
  cases hl with
  | noProgram => cases hpc
  | newSpace w m hstart hk => rcases hk with rfl | ⟨_, rfl⟩ | rfl <;> rfl
  | user r hk => cases hk <;> rfl
  | callSem hk => rcases hk with ⟨_, rfl⟩ | ⟨_, rfl⟩ <;> rfl
  | removeFinish ho hu => split <;> rfl
  | _ => rfl

/-- What an action means for the names and the programs. -/
inductive NameAct (d d' : Data) (t : Tid) : Pc → Pc → List NameNote → Prop
  | rest {pc k : Pc} (hk : k.starting = pc.starting) (hname : d'.threadName = d.threadName) :
      NameAct d d' t pc k []
  | runs {pc k : Pc} (p : String)
      (hpc : pc = .startProcess ∨ ∃ id, pc = .startProcess2 id ∧ d.getFileName id = some p)
      (hk : k.starting = false) (hname : d'.threadName = d.threadName) :
      NameAct d d' t pc k [.runs t p]
  | deleted {id : Int} {u : Tid} (hname : d'.threadName = Function.update d.threadName u none) :
      NameAct d d' t (.exec (.ret id (some u))) (.sysret id) [.deleted u]

theorem nameAct_of_code (hc : code t pc = .act f) (hf : f c d = some (k, d', es))
    (hslot : ∀ id, pc = .startProcess2 id → d.pcb id ≠ none) :
    NameAct d d' t pc k (nameAct t pc c d) := by
  have hl := localStep_of_code hc hf
  cases pc with
  | startProcess =>
    simp only [code, Instr.act.injEq] at hc
    subst hc
    cases ho : c.opened with
    | true =>
      simp only [ho, if_true, Option.some.injEq] at hf
      obtain ⟨hk, hname⟩ := starting_newAddrSpace hf
      simpa [nameAct, ho] using NameAct.runs c.name (.inl rfl) hk hname
    | false =>
      simp only [ho, Bool.false_eq_true, if_false, Option.some.injEq, Prod.mk.injEq] at hf
      obtain ⟨rfl, rfl, -⟩ := hf
      simp only [nameAct, ho, Bool.false_eq_true, if_false]
      refine .rest ?_ rfl
      split <;> rfl
  | startProcess2 id =>
    simp only [code, Instr.act.injEq] at hc
    subst hc
    obtain ⟨o, ho⟩ := Option.ne_none_iff_exists'.mp (hslot id rfl)
    simp only [ho, Option.some.injEq] at hf
    obtain ⟨hk, hname⟩ := starting_newAddrSpace hf
    have hfile : d.getFileName id = some (d.object o).name := by simp [Data.getFileName, ho]
    simpa [nameAct, hfile] using NameAct.runs _ (.inr ⟨id, rfl, hfile⟩) hk hname
  | exec j =>
    cases j with
    | ret id u =>
      simp only [code, execCode, Instr.act.injEq] at hc
      subst hc
      simp only [Option.some.injEq, Prod.mk.injEq] at hf
      obtain ⟨rfl, rfl, -⟩ := hf
      cases u with
      | none => exact .rest rfl rfl
      | some u => exact .deleted rfl
    | _ =>
      exact .rest (starting_of_localStep hl rfl) (threadName_of_localStep hl (by simp))
  | mainReturn => cases hc
  | _ => exact .rest (starting_of_localStep hl rfl) (threadName_of_localStep hl (by simp))

/-! ## The invariant -/

section Names

variable {a b : State SemId Pc (Data × List NameNote)} {tr es' : List (Event SemId Ev)}
  {ns ns' : List NameNote}

/-- A thread runs one program from its start on. -/
def Pc.Begun (ns : List NameNote) (t : Tid) (pc : Pc) : Prop :=
  if pc.starting then ∀ p, .runs t p ∉ ns else ∃ p, ∀ q, .runs t q ∈ ns ↔ q = p

theorem Pc.Begun.goto (h : pc.Begun ns t) (hk : k.starting = pc.starting) : k.Begun ns t := by
  rwa [Pc.Begun, hk]

theorem Pc.Begun.append (h : pc.Begun ns t) (hns : ∀ p, .runs t p ∉ ns') :
    pc.Begun (ns ++ ns') t := by
  simpa [Pc.Begun, hns] using h

theorem Pc.Begun.start (h : pc.Begun ns t) (hpc : pc.starting = true) (hk : k.starting = false)
    (p : String) : k.Begun (ns ++ [.runs t p]) t := by
  rw [Pc.Begun, if_pos hpc] at h
  rw [Pc.Begun, if_neg (by simp [hk])]
  refine ⟨p, fun q => ?_⟩
  simp [h q]

/-- The names of the threads, as long as they are there. -/
structure NamesInv (a : State SemId Pc (Data × List NameNote)) : Prop where
  booted : 0 < a.nextTid
  begun : ∀ t < a.nextTid, (a.pc t).Begun a.data.2 t
  runs : ∀ t p, .runs t p ∈ a.data.2 →
    t < a.nextTid ∧ (t ≠ 0 → a.data.1.getFileName (a.data.1.processID t) = some p)
  deleted : ∀ u, .deleted u ∈ a.data.2 → 0 < u ∧ u < a.nextTid ∧ a.data.1.threadName u = none
  main : a.data.1.threadName 0 = some "main"
  executed : ∀ t < a.nextTid, t ≠ 0 → .deleted t ∉ a.data.2 →
    a.data.1.threadName t = a.data.1.getFileName (a.data.1.processID t)

/-- The file name of a process stays. -/
theorem getFileName_kept {a b : State SemId Pc Data} (hi : TableInv a) (hk : Kept a b)
    (ht : t < a.nextTid) :
    b.data.getFileName (b.data.processID t) = a.data.getFileName (a.data.processID t) := by
  obtain ⟨o, ho⟩ := hi.occupied ht
  rw [hk.processID t ht]
  simp [Data.getFileName, ho, hk.slot _ o ho, hk.name o (hi.slot _ o ho).2.2]

/-- A step that notes nothing, and makes at most threads that are named by their file. -/
theorem NamesInv.frame (h : NamesInv a) (hi : TableInv a.forget) (hk : Kept a.forget b.forget)
    (hns : b.data.2 = a.data.2)
    (hname : ∀ t < a.nextTid, b.data.1.threadName t = a.data.1.threadName t)
    (hbegun : ∀ t < a.nextTid, (b.pc t).starting = (a.pc t).starting)
    (hnew : ∀ t < b.nextTid, ¬t < a.nextTid → t ≠ 0 ∧ (b.pc t).starting = true ∧
      b.data.1.threadName t = b.data.1.getFileName (b.data.1.processID t)) : NamesInv b := by
  have hfile : ∀ t < a.nextTid, b.data.1.getFileName (b.data.1.processID t) =
      a.data.1.getFileName (a.data.1.processID t) := fun t ht => getFileName_kept hi hk ht
  have htid : a.nextTid ≤ b.nextTid := hk.nextTid
  refine ⟨lt_of_lt_of_le h.booted htid, fun t ht => ?_, fun t p hp => ?_, fun u hu => ?_,
    (hname 0 h.booted).trans h.main, fun t ht h0 hd => ?_⟩
  · rw [hns]
    by_cases hlt : t < a.nextTid
    · exact (h.begun t hlt).goto (hbegun t hlt)
    · obtain ⟨-, hstart, -⟩ := hnew t ht hlt
      rw [Pc.Begun, if_pos hstart]
      exact fun p hp => hlt (h.runs t p hp).1
  · rw [hns] at hp
    obtain ⟨ht, hp⟩ := h.runs t p hp
    exact ⟨lt_of_lt_of_le ht htid, fun h0 => (hfile t ht).trans (hp h0)⟩
  · rw [hns] at hu
    obtain ⟨h0, hlt, hnone⟩ := h.deleted u hu
    exact ⟨h0, lt_of_lt_of_le hlt htid, (hname u hlt).trans hnone⟩
  · rw [hns] at hd
    by_cases hlt : t < a.nextTid
    · rw [hname t hlt, hfile t hlt]
      exact h.executed t hlt h0 hd
    · exact (hnew t ht hlt).2.2

theorem NamesInv.act (h : NamesInv a) (hi : TableInv a.forget) (ht : t < a.nextTid)
    (hhand : (a.pc t).InHand a.data.1 a.nextTid t)
    (hk : Kept a.forget { a.forget.goto t k with data := d })
    (ha : NameAct a.data.1 d t (a.pc t) k ns) :
    NamesInv { a.goto t k with data := (d, a.data.2 ++ ns) } := by
  have hfile : ∀ u < a.nextTid, d.getFileName (d.processID u) =
      a.data.1.getFileName (a.data.1.processID u) := fun u hu => getFileName_kept hi hk hu
  generalize hpc : a.pc t = pc at hhand ha
  cases ha with
  | rest hstart hname =>
    refine h.frame hi hk (List.append_nil _) (fun u _ => by rw [hname]) (fun u _ => ?_)
      (fun u hu hn => absurd hu hn)
    by_cases hut : u = t
    · subst hut
      simpa [hpc] using hstart
    · simp [hut]
  | runs p hrun hstart hname =>
    have hown : t ≠ 0 → d.getFileName (d.processID t) = some p := by
      intro h0
      rcases hrun with rfl | ⟨id, rfl, hp⟩
      · exact absurd hhand h0
      · rw [hfile t ht, show a.data.1.processID t = id from hhand]
        exact hp
    refine ⟨h.booted, fun u hu => ?_, fun u q hq => ?_, fun u hu => ?_, ?_, fun u hu h0 hd => ?_⟩
    · by_cases hut : u = t
      · subst hut
        simp only [State.goto_pc, Function.update_self]
        refine (h.begun u ht).start ?_ hstart p
        rcases hrun with rfl | ⟨_, rfl, -⟩ <;> rw [hpc] <;> rfl
      · simp only [State.goto_pc, Function.update_of_ne hut]
        exact (h.begun u hu).append (by simp [hut])
    · simp only [List.mem_append, List.mem_singleton, NameNote.runs.injEq] at hq
      rcases hq with hq | ⟨rfl, rfl⟩
      · obtain ⟨hu, hq⟩ := h.runs u q hq
        exact ⟨hu, fun h0 => (hfile u hu).trans (hq h0)⟩
      · exact ⟨ht, hown⟩
    · simp only [List.mem_append, List.mem_singleton, reduceCtorEq, or_false] at hu
      obtain ⟨h0, hlt, hnone⟩ := h.deleted u hu
      exact ⟨h0, hlt, by simpa only [hname] using hnone⟩
    · simpa only [hname] using h.main
    · simp only [List.mem_append, List.mem_singleton, reduceCtorEq, or_false] at hd
      simp only [hname, hfile u hu]
      exact h.executed u hu h0 hd
  | @deleted id u hname =>
    obtain ⟨hu0, hu⟩ : 0 < u ∧ u < a.nextTid := hhand
    have hother : ∀ v, v ≠ u → d.threadName v = a.data.1.threadName v := by
      intro v hv
      rw [hname, Function.update_of_ne hv]
    refine ⟨h.booted, fun v hv => ?_, fun v q hq => ?_, fun v hv => ?_, ?_, fun v hv h0 hd => ?_⟩
    · by_cases hvt : v = t
      · subst hvt
        simp only [State.goto_pc, Function.update_self]
        exact ((h.begun v ht).goto (by rw [hpc]; rfl)).append (by simp)
      · simp only [State.goto_pc, Function.update_of_ne hvt]
        exact (h.begun v hv).append (by simp)
    · simp only [List.mem_append, List.mem_singleton, reduceCtorEq, or_false] at hq
      obtain ⟨hv, hq⟩ := h.runs v q hq
      exact ⟨hv, fun h0 => (hfile v hv).trans (hq h0)⟩
    · simp only [List.mem_append, List.mem_singleton, NameNote.deleted.injEq] at hv
      by_cases hvu : v = u
      · subst hvu
        exact ⟨hu0, hu, by simp [hname]⟩
      · obtain ⟨h0, hlt, hnone⟩ := h.deleted v (hv.resolve_right hvu)
        exact ⟨h0, hlt, (hother v hvu).trans hnone⟩
    · exact (hother 0 hu0.ne).trans h.main
    · simp only [List.mem_append, List.mem_singleton, NameNote.deleted.injEq, not_or] at hd
      rw [show d.threadName v = a.data.1.threadName v from hother v hd.2]
      exact (h.executed v hv h0 hd.1).trans (hfile v hv).symm

theorem names_step (hs : Noted (process initial) nameNotes a es' b) (hi : TableInv a.forget)
    (hhand : ∀ t < a.nextTid, (a.pc t).InHand a.data.1 a.nextTid t) (h : NamesInv a) :
    NamesInv b := by
  have hk := kept_of_step (processStep_of_step hs.forget) hi
  -- a thread calls `P` or `V`, or goes on after a tick
  have hgoto : ∀ {a' : State SemId Pc (Data × List NameNote)} {t : Tid} {k : Pc},
      a'.data = a.data → a'.nextTid = a.nextTid → a'.pc = Function.update a.pc t k →
      Kept a.forget a'.forget → k.starting = (a.pc t).starting → NamesInv a' := by
    intro a' t k hdata htid hpc hk' hstart
    refine h.frame hi hk' (by rw [hdata]) (fun u _ => by rw [hdata]) (fun u _ => ?_)
      (fun u hu hn => absurd (htid ▸ hu) hn)
    rw [hpc]
    by_cases hut : u = t
    · subst hut
      simpa using hstart
    · simp [hut]
  cases hs with
  | P ht hc hv => exact hgoto rfl rfl rfl hk (callsP_of_code hc).starting
  | V ht hc => exact hgoto rfl rfl rfl hk (callsV_of_code hc).starting
  | handler hd =>
    exact h.frame hi hk rfl (fun _ _ => rfl) (fun _ _ => rfl) fun u hu hn => absurd hu hn
  | yield ht hc =>
    obtain ⟨rfl, hpc⟩ := tick_of_code hc
    exact hgoto rfl rfl rfl hk (by rw [hpc]; rfl)
  | @fork t child k setup ht hc =>
    obtain ⟨i, o, name, hpc, rfl, rfl, rfl⟩ := fork_of_code hc
    have hl := hi.looked t ht
    have hname := hhand t ht
    simp only [State.forget_pc, hpc] at hl
    rw [hpc] at hname
    have ho : a.data.1.pcb i = some o := hl.2.2.1
    have hname : (a.data.1.object o).name = name := hname
    refine h.frame hi hk (List.append_nil _) (fun u hu => ?_) (fun u hu => ?_) fun u hu hn => ?_
    · simp [hu.ne]
    · by_cases hut : u = t
      · subst hut
        simp [hpc, Pc.starting]
      · simp [hut, hu.ne]
    · obtain rfl : u = a.nextTid := le_antisymm (Nat.lt_succ_iff.mp hu) (not_lt.mp hn)
      refine ⟨h.booted.ne', ?_, ?_⟩
      · simp [ht.ne', Pc.starting]
      · simp [Data.getFileName, Data.setObject, ho, hname]
  | @act t f c k d es ht hc hf =>
    refine h.act hi ht (hhand t ht) hk (nameAct_of_code hc hf ?_)
    intro id hpc
    have hid : a.data.1.processID t = id := by
      have := hhand t ht
      rwa [hpc] at this
    obtain ⟨o, ho⟩ : ∃ o, a.data.1.pcb (a.data.1.processID t) = some o := hi.occupied ht
    rw [← hid, ho]
    simp
  | hook hd =>
    exact h.frame hi hk rfl (fun u _ => congrFun (threadName_of_hook hd) u) (fun _ _ => rfl)
      fun u hu hn => absurd hu hn

theorem names_run (h : (atomic (namedProcess initial)).Run tr a) : NamesInv a := by
  refine h.invariant (I := fun _ a => NamesInv a) ?_ ?_
  · rintro a rfl
    have hnone : ((namedProcess initial).initial).data.2 = [] := rfl
    refine ⟨Nat.one_pos, fun t _ => ?_, ?_, ?_, rfl, fun t ht h0 => ?_⟩
    · simp [Pc.Begun, Program.initial, namedProcess, Program.noting, process, Pc.starting]
    · simp [hnone]
    · simp [hnone]
    · exact absurd (Nat.lt_one_iff.mp ht) h0
  · intro tr a es b hr hi hs
    have hr := forget_run hr
    exact names_step (noted_of_step hs) (table_run hr) (inHand_run hr) hi

end Names

/-- Against a name that is there, the check finds the program if it would find the name. -/
theorem checksSelf_of_named {n : String} (hslot : 0 ≤ d.getFreeSlot) (hn : d.threadName t = some n) :
    ChecksSelf d t name program ↔ (name = n ↔ name = program) := by
  have hcheck : ∀ c : Choice, c.opened = true → (Refused t name c d ↔ name = n) := by
    intro c hc
    rw [refused_iff hc hslot, Data.isNamed, hn]
    simp
  constructor
  · intro h
    exact (hcheck {} rfl).symm.trans (h {} rfl)
  · intro h c hc
    exact (hcheck c hc).trans h

/-- Against a name that is gone, it may come out either way. -/
theorem not_checksSelf_of_deleted (hslot : 0 ≤ d.getFreeSlot) (hn : d.threadName t = none) :
    ¬ChecksSelf d t name program := by
  intro h
  have hcheck : ∀ stale, stale = true ↔ name = program := by
    intro stale
    rw [← h { sameName := stale } rfl, refused_iff rfl hslot, Data.isNamed, hn]
  have hfalse := (hcheck false).mpr ((hcheck true).mp rfl)
  cases hfalse

section Kernel

variable {σ : Kernel SemId Pc (Data × List NameNote)} {tr : List (KEvent SemId Ev)}

/-- With a slot free, `ExecUpdate` refuses exactly the program of the calling process: in the
first process if that is called `main`, or `name` is neither, and in an executed one as long as
its name has not been deleted. -/
theorem checksSelf_iff (h : (kernel (namedProcess initial)).Run tr σ) (ht : t < σ.nextTid)
    (hpc : σ.pc t = .exec (.check name)) (hslot : 0 ≤ σ.data.1.getFreeSlot) :
    ∃ program, (∀ p, .runs t p ∈ σ.data.2 ↔ p = program) ∧
      (ChecksSelf σ.data.1 t name program ↔ NameTells σ.data.2 t name program) := by
  have hn := names_run (atomic_run h)
  obtain ⟨program, hprogram⟩ : ∃ p, ∀ q, .runs t q ∈ σ.data.2 ↔ q = p := by
    have hb : (σ.pc t).Begun σ.data.2 t := hn.begun t ht
    rw [hpc] at hb
    exact hb
  refine ⟨program, hprogram, ?_⟩
  unfold NameTells
  by_cases h0 : t = 0
  · subst h0
    rw [if_pos rfl, checksSelf_of_named hslot hn.main]
    constructor
    · intro h
      by_cases hm : program = "main"
      · exact .inl hm
      · refine .inr ⟨fun hname => hm ?_, fun hname => hm ?_⟩
        · rw [← h.mp hname, hname]
        · rw [← hname, h.mpr hname]
    · rintro (rfl | ⟨hm, hp⟩)
      · exact Iff.rfl
      · exact iff_of_false hm hp
  · rw [if_neg h0]
    by_cases hd : .deleted t ∈ σ.data.2
    · have hnone : σ.data.1.threadName t = none := (hn.deleted t hd).2.2
      exact iff_of_false (not_checksSelf_of_deleted hslot hnone) (not_not_intro hd)
    · have hname : σ.data.1.threadName t = some program :=
        (hn.executed t ht h0 hd).trans ((hn.runs t program ((hprogram program).mpr rfl)).2 h0)
      rw [checksSelf_of_named hslot hname]
      exact iff_of_true Iff.rfl hd

/-- The file name a call of `ExecUpdate` checks. -/
def Pc.checking : Pc → Option String
  | .exec (.check name) => some name
  | _ => none

theorem eq_of_checking (h : pc.checking = some name) : pc = .exec (.check name) := by
  unfold Pc.checking at h
  split at h
  · rw [Option.some.inj h]
  · cases h

/-- The first process runs `prog` and executes `name`, up to the checks. -/
def checkSchedule (prog name : String) : Schedule :=
  .cpu { name := prog } :: cpu 11 ++ (userCalls 2 0).dropLast ++ [.cpu { name }] ++ cpu 2

/-- Process `0` runs `prog` and may execute `child`. -/
theorem checksSelf_other : ∃ tr σ, (kernel (namedProcess fun _ => 0)).Run tr σ ∧
    σ.pc 0 = .exec (.check "child") ∧ .runs 0 "prog" ∈ σ.data.2 ∧
    ChecksSelf σ.data.1 0 "child" "prog" := by
  obtain ⟨tr, σ, hr, -, hp⟩ := System.exists_run_of_exec (Kernel.boot (namedProcess fun _ => 0))
    (Kernel.next (namedProcess fun _ => 0)) (checkSchedule "prog" "child")
    (fun r => decide (0 < r.1.nextTid ∧ (r.1.pc 0).checking = some "child" ∧
      0 ≤ r.1.data.1.getFreeSlot ∧ .runs 0 "prog" ∈ r.1.data.2)) (by decide +kernel)
  obtain ⟨ht, hpc, hslot, hruns⟩ := of_decide_eq_true hp
  obtain ⟨program, hprogram, hiff⟩ := checksSelf_iff hr ht (eq_of_checking hpc) hslot
  obtain rfl := (hprogram "prog").mp hruns
  refine ⟨tr, σ, hr, eq_of_checking hpc, hruns, hiff.mpr ?_⟩
  exact .inr (by decide)

/-- Process `0` runs `prog` and may execute `prog`. -/
theorem self_not_refused : ∃ tr σ, (kernel (namedProcess fun _ => 0)).Run tr σ ∧
    σ.pc 0 = .exec (.check "prog") ∧ 0 ≤ σ.data.1.getFreeSlot ∧ .runs 0 "prog" ∈ σ.data.2 ∧
    ¬ChecksSelf σ.data.1 0 "prog" "prog" := by
  obtain ⟨tr, σ, hr, -, hp⟩ := System.exists_run_of_exec (Kernel.boot (namedProcess fun _ => 0))
    (Kernel.next (namedProcess fun _ => 0)) (checkSchedule "prog" "prog")
    (fun r => decide ((r.1.pc 0).checking = some "prog" ∧ 0 ≤ r.1.data.1.getFreeSlot ∧
      .runs 0 "prog" ∈ r.1.data.2)) (by decide +kernel)
  obtain ⟨hpc, hslot, hruns⟩ := of_decide_eq_true hp
  have hmain : σ.data.1.threadName 0 = some "main" := (names_run (atomic_run hr)).main
  refine ⟨tr, σ, hr, eq_of_checking hpc, hslot, hruns, fun h => ?_⟩
  have := ((checksSelf_of_named hslot hmain).mp h).mpr rfl
  exact absurd this (by decide)

end Kernel

end Nachos
