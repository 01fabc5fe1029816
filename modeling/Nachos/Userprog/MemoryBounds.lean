import Nachos.Userprog.Memory

/-!
# Frames that exist

`gPhysPageBitMap` has 256 bits, but memory has `NumPhysPages` frames. The check in the
constructors of `AddrSpace` is against the bit map alone. What keeps frames, `bzero` and
the loader inside `mainMemory` is that the processes together ask for no more than there is.
-/
namespace Nachos

open Concurrent

variable {initial : ℕ → Int} {a b : State SemId Pc Data} {tr es : List (Event SemId Ev)}
  {t : Tid} {s : SpaceId}

open NoffHeader (InMemory)

/-- A program that is not displaced, whose pages fit beside the frames already in use,
`free` bits being clear. -/
def Affordable (y : NoffHeader) (free : ℕ) : Prop :=
  y.InPages ∧ 256 - free + y.numPages.toNat ≤ NumPhysPages

instance {y : NoffHeader} {free : ℕ} : Decidable (Affordable y free) :=
  inferInstanceAs (Decidable (_ ∧ _))

/-- What the linker makes is affordable where there are frames for it. -/
theorem affordable_of_linked {y : NoffHeader} {free : ℕ} (hl : y.Linked)
    (hroom : 256 - free + y.numPages.toNat ≤ NumPhysPages) : Affordable y free :=
  ⟨hl.inPages (by omega), hroom⟩

/-- Whenever the check of the constructors succeeds, the program is affordable. -/
def AllAffordable (tr : List (Event SemId Ev)) : Prop :=
  ∀ t y free, .act t (.allocating y free) ∈ tr → Affordable y free

/-- The header of an address space whose frames are being, or have been, taken. -/
def AddrSpacePc.allocated : AddrSpacePc → Option NoffHeader
  | .page y _ | .V y | .load y => some y
  | _ => none

/-- What a constructor at `j` may rely on, with `n` frames in use. -/
structure AddrSpacePc.Bounded (n : ℕ) (j : AddrSpacePc) : Prop where
  inPages : ∀ y, j.allocated = some y → y.InPages
  room : ∀ y i, j = .page y i → n + (y.numPages.toNat - i) ≤ NumPhysPages

theorem bounded_of_allocated {n : ℕ} {j : AddrSpacePc} (h : j.allocated = none) : j.Bounded n := by
  constructor
  · simp [h]
  · rintro y i rfl
    simp [AddrSpacePc.allocated] at h

structure BoundsInv (tr : List (Event SemId Ev)) (a : State SemId Pc Data) : Prop where
  card : a.data.gPhysPageBitMap.marked.card ≤ NumPhysPages
  bounded : ∀ t < a.nextTid, ∀ s j, a.pc t = .construct s j →
    j.Bounded a.data.gPhysPageBitMap.marked.card
  cleared : ∀ t x n, .act t (.bzero x n) ∈ tr → InMemory x n
  loaded : ∀ t x n, .act t (.readAt x n) ∈ tr → InMemory x n

/-- Steps that take no frame. -/
theorem BoundsInv.frame (h : BoundsInv tr a)
    (hbits : b.data.gPhysPageBitMap = a.data.gPhysPageBitMap)
    (hpc : ∀ u < b.nextTid, ∀ s j, b.pc u = .construct s j →
      (u < a.nextTid ∧ a.pc u = .construct s j) ∨
        j.Bounded a.data.gPhysPageBitMap.marked.card)
    (hb : ∀ t x n, .act t (.bzero x n) ∉ es)
    (hr : ∀ t x n, .act t (.readAt x n) ∈ es → InMemory x n) : BoundsInv (tr ++ es) b where
  card := by simpa only [hbits] using h.card
  bounded u hu s j hj := by
    rw [hbits]
    rcases hpc u hu s j hj with ⟨hu, hj⟩ | hj
    · exact h.bounded u hu s j hj
    · exact hj
  cleared t x n hm := by
    rcases List.mem_append.mp hm with hm | hm
    · exact h.cleared t x n hm
    · exact absurd hm (hb t x n)
  loaded t x n hm := by
    rcases List.mem_append.mp hm with hm | hm
    · exact h.loaded t x n hm
    · exact hr t x n hm

theorem BoundsInv.other (h : BoundsInv tr a)
    (hbits : b.data.gPhysPageBitMap = a.data.gPhysPageBitMap) (hpc : NoNewConstruct a b)
    (hb : ∀ t x n, .act t (.bzero x n) ∉ es) (hr : ∀ t x n, .act t (.readAt x n) ∉ es) :
    BoundsInv (tr ++ es) b :=
  h.frame hbits (fun u hu s j hj => .inl (hpc u hu s j hj)) hb
    fun t x n hm => absurd hm (hr t x n)

/-- One thread moves inside a constructor. -/
theorem BoundsInv.move (h : BoundsInv tr a) {j : AddrSpacePc}
    (hbt : b.nextTid = a.nextTid) (hbp : b.pc = Function.update a.pc t (.construct s j))
    (hbits : b.data.gPhysPageBitMap = a.data.gPhysPageBitMap)
    (hj : j.Bounded a.data.gPhysPageBitMap.marked.card)
    (hb : ∀ t x n, .act t (.bzero x n) ∉ es)
    (hr : ∀ t x n, .act t (.readAt x n) ∈ es → InMemory x n) : BoundsInv (tr ++ es) b := by
  refine h.frame hbits ?_ hb hr
  intro u hu s' j' hj'
  rw [hbt] at hu
  rw [hbp] at hj'
  by_cases hut : u = t
  · rw [hut, Function.update_self, Pc.construct.injEq] at hj'
    exact .inr (hj'.2 ▸ hj)
  · exact .inl ⟨hu, by simpa [hut] using hj'⟩

/-- Frames in use are below their number, so a table filled by now has only real frames. -/
theorem frame_lt (hm : MemoryInv tr a) (hc : a.data.gPhysPageBitMap.marked.card ≤ NumPhysPages)
    {r : Int} (hr : r ∈ (a.data.addrSpace s).frames) : 0 ≤ r ∧ r < NumPhysPages := by
  obtain ⟨i, hi, rfl⟩ := (hm.frames.marked r).mp ⟨s, hr⟩
  rw [hm.frames.lowest, Finset.mem_range] at hi
  omega

theorem BoundsInv.page (h : BoundsInv tr a) (hm : MemoryInv tr a)
    (hx : Exclusive .addrLock Pc.inAddrLock tr a) (ht : t < a.nextTid) {y : NoffHeader} {i : ℕ}
    (hpc : a.pc t = .construct s (.page y i))
    (hi : i < (a.data.addrSpace s).numPages.toNat) {d : Data}
    (hd : d.gPhysPageBitMap = a.data.gPhysPageBitMap.find.2) :
    BoundsInv (tr ++ [.act t (.find a.data.gPhysPageBitMap.find.1),
        .act t (.bzero (a.data.gPhysPageBitMap.find.1 * PageSize) PageSize)])
      { a.goto t (.construct s (.page y (i + 1))) with data := d } := by
  obtain ⟨_, _, _, hnum⟩ := hm.filled t ht s _ hpc
  rw [hnum] at hi
  have hclear : 0 < a.data.gPhysPageBitMap.numClear := by
    have := hm.room t ht s y i hpc
    omega
  obtain ⟨hfind, _, hcard, _⟩ := hm.frames.find hclear s
  have hb := h.bounded t ht s _ hpc
  have hroom := hb.room y i rfl
  constructor
  · show d.gPhysPageBitMap.marked.card ≤ NumPhysPages
    rw [hd, hcard]
    omega
  · intro u hu s' j hj
    show j.Bounded d.gPhysPageBitMap.marked.card
    rw [hd, hcard]
    by_cases hut : u = t
    · subst hut
      simp only [State.goto_pc, Function.update_self, Pc.construct.injEq] at hj
      obtain ⟨rfl, rfl⟩ := hj
      refine ⟨fun z hz => hb.inPages z hz, ?_⟩
      rintro _ _ ⟨⟩
      omega
    · have hj : a.pc u = .construct s' j := by simpa [hut] using hj
      refine ⟨(h.bounded u hu s' j hj).inPages, ?_⟩
      rintro z k rfl
      -- nobody else is in the loop
      have := hx.unique u t ⟨hu, by rw [hj]; rfl⟩ ⟨ht, by rw [hpc]; rfl⟩
      exact absurd this hut
  · intro u x n hmem
    simp only [List.mem_append, List.mem_cons, Event.act.injEq, Ev.bzero.injEq, reduceCtorEq,
      and_false, List.not_mem_nil, or_false, false_or] at hmem
    rcases hmem with hmem | ⟨_, rfl, rfl⟩
    · exact h.cleared u x n hmem
    · have hsize : (MemorySize : Int) = 65536 := by decide
      simp only [InMemory, hsize, hfind, PageSize]
      simp only [NumPhysPages] at hroom
      omega
  · intro u x n hmem
    simp only [List.mem_append, List.mem_cons, Event.act.injEq, reduceCtorEq, and_false,
      List.not_mem_nil, or_false] at hmem
    exact h.loaded u x n hmem

/-- A constructor about to load the segments reads them into memory. -/
theorem BoundsInv.readsInMemory (h : BoundsInv tr a) (hm : MemoryInv tr a) (ht : t < a.nextTid)
    {y : NoffHeader} (hpc : a.pc t = .construct s (.load y)) :
    ∀ r ∈ y.reads (a.data.addrSpace s).entries, InMemory r.1 r.2 := by
  have hb := (h.bounded t ht _ _ hpc).inPages y rfl
  obtain ⟨_, hlen, hnum⟩ := hm.filled t ht _ _ hpc
  rw [hnum] at hlen
  refine hb.inMemory hlen fun e he => ?_
  exact frame_lt hm h.card (List.mem_map_of_mem he)

theorem bounds_act {k : Pc} {d : Data} {evs : List Ev} (ht : t < a.nextTid)
    (hl : LocalStep t a.data (a.pc t) evs k d) (hx : Exclusive .addrLock Pc.inAddrLock tr a)
    (hm : MemoryInv tr a) (hf : AllAffordable (tr ++ evs.map (.act t))) (h : BoundsInv tr a) :
    BoundsInv (tr ++ evs.map (.act t)) { a.goto t k with data := d } := by
  generalize hpc : a.pc t = pc at hl
  cases hl with
  | newSpace w n _ hk =>
    rcases hk with rfl | ⟨_, rfl⟩ | rfl
    · exact h.move rfl rfl rfl (bounded_of_allocated rfl) (by simp) (by simp)
    · exact h.move rfl rfl rfl (bounded_of_allocated rfl) (by simp) (by simp)
    · exact h.other rfl (noNewConstruct_goto rfl rfl (by simp)) (by simp) (by simp)
  | full hf => exact h.move rfl rfl rfl (bounded_of_allocated rfl) (by simp) (by simp)
  | @fits s y hfit =>
    have hy : Affordable y a.data.gPhysPageBitMap.numClear := hf t y _ (by simp)
    have hcount := a.data.gPhysPageBitMap.card_marked_add_numClear
    rw [hm.frames.numBits] at hcount
    have hsum := hy.2
    refine h.move rfl rfl rfl ⟨?_, ?_⟩ (by simp) (by simp)
    · rintro _ ⟨⟩
      exact hy.1
    · rintro _ _ ⟨⟩
      omega
  | page hi => exact h.page hm hx ht hpc hi rfl
  | lastPage hi =>
    have hb := h.bounded t ht _ _ hpc
    exact h.move rfl rfl rfl ⟨fun y hy => hb.inPages y hy, by simp⟩ (by simp) (by simp)
  | @load s y _ =>
    have hin := h.readsInMemory hm ht hpc
    refine h.move rfl rfl rfl (bounded_of_allocated rfl) (by simp) ?_
    intro u x n hmem
    simp only [List.map_map, List.mem_map, Function.comp_apply, Event.act.injEq,
      Ev.readAt.injEq] at hmem
    obtain ⟨r, hr, _, rfl, rfl⟩ := hmem
    exact hin r hr
  | @loadFails s y _ =>
    have hin := h.readsInMemory hm ht hpc
    have hno : NoNewConstruct a { a.goto t .halted with data := a.data } :=
      noNewConstruct_goto rfl rfl (by simp)
    refine h.frame rfl (fun u hu s' j hj => .inl (hno u hu s' j hj)) (by simp) ?_
    intro u x n hmem
    simp only [List.map_map, List.mem_map, Function.comp_apply, Event.act.injEq,
      Ev.readAt.injEq] at hmem
    obtain ⟨r, hr, _, rfl, rfl⟩ := hmem
    exact hin r hr
  | user r hk =>
    exact h.other rfl (noNewConstruct_goto rfl rfl (by cases hk <;> simp)) (by simp) (by simp)
  | noProgram hk =>
    exact h.other rfl (noNewConstruct_goto rfl rfl (by rcases hk with rfl | rfl <;> simp))
      (by simp) (by simp)
  | callSem hk =>
    refine h.other rfl (noNewConstruct_goto rfl rfl ?_) (by simp) (by simp)
    rcases hk with ⟨_, rfl⟩ | ⟨_, rfl⟩ <;> simp
  | halt _ hes =>
    refine h.other rfl (noNewConstruct_goto rfl rfl (by simp)) ?_ ?_ <;>
      rcases hes with rfl | rfl <;> simp [freeSpace]
  | removeFinish ho hu =>
    refine h.other rfl (noNewConstruct_goto rfl rfl (by split <;> simp)) ?_ ?_ <;>
      simp [freeSpace]
  | _ => exact h.other rfl (noNewConstruct_goto rfl rfl (by simp)) (by simp) (by simp)

theorem bounds_step (hs : ProcessStep a es b) (hx : Exclusive .addrLock Pc.inAddrLock tr a)
    (hm : MemoryInv tr a) (hf : AllAffordable (tr ++ es)) (h : BoundsInv tr a) :
    BoundsInv (tr ++ es) b := by
  cases hs with
  | @P t s k ht hc hv =>
    generalize hpc : a.pc t = pc at hc
    cases hc with
    | construct => exact h.move rfl rfl rfl (bounded_of_allocated rfl) (by simp) (by simp)
    | _ => exact h.other rfl (noNewConstruct_goto rfl rfl (by simp)) (by simp) (by simp)
  | @V t s k ht hc =>
    generalize hpc : a.pc t = pc at hc
    cases hc with
    | constructFull => exact h.move rfl rfl rfl (bounded_of_allocated rfl) (by simp) (by simp)
    | construct =>
      have hb := h.bounded t ht _ _ hpc
      exact h.move rfl rfl rfl ⟨fun y hy => hb.inPages y hy, by simp⟩ (by simp) (by simp)
    | _ => exact h.other rfl (noNewConstruct_goto rfl rfl (by simp)) (by simp) (by simp)
  | handler => exact h.other rfl (fun u hu s j hj => ⟨hu, hj⟩) (by simp) (by simp)
  | tick ht hc => exact h.other rfl (noNewConstruct_goto rfl rfl (by simp)) (by simp) (by simp)
  | fork ht hc => exact h.other rfl noNewConstruct_fork (by simp) (by simp)
  | act ht hl => exact bounds_act ht hl hx hm hf h
  | hook => exact h.other rfl (fun u hu s j hj => ⟨hu, hj⟩) (by simp) (by simp)

theorem bounds_run (h : (atomic (process initial)).Run tr a) (hf : AllAffordable tr) :
    BoundsInv tr a := by
  refine h.invariant (I := fun tr a => AllAffordable tr → BoundsInv tr a) ?_ ?_ hf
  · rintro a rfl _
    refine ⟨?_, ?_, ?_, ?_⟩ <;> simp [Program.initial, process, initialData]
  · intro tr a es b hr hi hs hf
    refine bounds_step (processStep_of_step hs) (exclusive_run addrLock_lock hr) (memory_run hr) hf
      (hi fun t y free hm => hf t y free ?_)
    simp [hm]

section Kernel

variable {σ : Kernel SemId Pc Data} {tr : List (KEvent SemId Ev)}

/-- Every frame handed out is there, the loader writes inside `mainMemory`, and no page
that the loader marked valid raises a bus error. -/
structure FramesExist (tr : List (KEvent SemId Ev)) (σ : Kernel SemId Pc Data) : Prop where
  frame : ∀ s, ∀ r ∈ (σ.data.addrSpace s).frames, 0 ≤ r ∧ r < NumPhysPages
  cleared : ∀ t x n, .sync (.act t (.bzero x n)) ∈ tr → InMemory x n
  loaded : ∀ t x n, .sync (.act t (.readAt x n)) ∈ tr → InMemory x n
  translated : ∀ s virtAddr size writing,
    translate (fun i => (σ.data.addrSpace s).entries.getD i default)
      (σ.data.addrSpace s).numPages virtAddr size writing ≠ .error .BusErrorException

/-- A page table with real frames never leads to a bus error. -/
theorem translate_ne_busError {x : AddrSpace} (h : ∀ r ∈ x.frames, 0 ≤ r ∧ r < NumPhysPages)
    {numPages virtAddr : BitVec 32} {size : ℕ} {writing : Bool} :
    translate (fun i => x.entries.getD i default) numPages virtAddr size writing ≠
      .error .BusErrorException := by
  intro hb
  obtain ⟨_, hv, hp⟩ := translate_busError hb
  generalize virtAddr.toNat / PageSize = i at hv hp
  by_cases hi : i < x.entries.length
  · have he := h _ (List.mem_map_of_mem (List.getElem_mem hi))
    simp only [List.getD_eq_getElem?_getD, List.getElem?_eq_getElem hi, Option.getD_some,
      BitVec.toNat_ofInt, NumPhysPages] at he hp
    omega
  · simp [List.getD_eq_getElem?_getD, List.getElem?_eq_none (not_lt.mp hi), default] at hv

/-- In every run in which each program that passes the check is affordable, all frames
exist. -/
theorem frames_exist (h : (kernel (process initial)).Run tr σ)
    (hf : ∀ t y free, .sync (.act t (.allocating y free)) ∈ tr → Affordable y free) :
    FramesExist tr σ := by
  have hr := atomic_run h
  have hm := memory_run hr
  have hb := bounds_run hr fun t y free he => hf t y free (mem_synced.mp he)
  have hframe : ∀ s, ∀ r ∈ (σ.data.addrSpace s).frames, 0 ≤ r ∧ r < NumPhysPages :=
    fun s r hr => frame_lt hm hb.card hr
  exact ⟨hframe, fun t x n he => hb.cleared t x n (mem_synced.mpr he),
    fun t x n he => hb.loaded t x n (mem_synced.mpr he),
    fun s _ _ _ => translate_ne_busError (hframe s)⟩

def KEvent.affordable : KEvent SemId Ev → Bool
  | .sync (.act _ (.allocating y free)) => Affordable y free
  | _ => true

theorem frames_exist_parent_child : ∃ tr σ, (kernel quiet).Run tr σ ∧ FramesExist tr σ ∧
    (σ.data.addrSpace 1).frames = [2, 3] := by
  obtain ⟨tr, σ, hr, _, hp⟩ := System.exists_run_of_exec (Kernel.boot quiet)
    (Kernel.next quiet)
    (bootSchedule ++ execSchedule ++ joinSchedule ++ startSchedule)
    (fun r => decide ((r.1.data.addrSpace 1).frames = [2, 3] ∧ ∀ e ∈ r.2, e.affordable))
    (by decide +kernel)
  obtain ⟨h1, hf⟩ := of_decide_eq_true hp
  refine ⟨tr, σ, hr, frames_exist hr fun t y free he => ?_, h1⟩
  simpa [KEvent.affordable] using hf _ he

/-- A program of 129 pages, linked as it should be. -/
def largeHeader : NoffHeader := ⟨NOFFMAGIC, ⟨0, 40, 65024⟩, ⟨0, 0, 0⟩, ⟨0, 0, 0⟩⟩

/-- It passes the check in an empty system, and is given frame 128. -/
theorem frame_beyond_memory : largeHeader.Linked ∧ ∃ tr σ, (kernel quiet).Run tr σ ∧
    .sync (.act 0 (.allocating largeHeader 256)) ∈ tr ∧ ¬FramesExist tr σ := by
  refine ⟨by decide, ?_⟩
  obtain ⟨tr, σ, hr, _, hp⟩ := System.exists_run_of_exec (Kernel.boot quiet)
    (Kernel.next quiet) (.cpu { header := largeHeader } :: cpu 133)
    (fun r => decide (KEvent.sync (.act 0 (.allocating largeHeader 256)) ∈ r.2 ∧
      KEvent.sync (.act 0 (.bzero 65536 512)) ∈ r.2)) (by decide +kernel)
  obtain ⟨ha, hb⟩ := of_decide_eq_true hp
  refine ⟨tr, σ, hr, ha, fun hx => ?_⟩
  exact absurd (hx.cleared 0 _ _ hb).2 (by decide)

end Kernel

end Nachos
