import Nachos.Lib.Lock
import Nachos.Threads.Refinement
import Nachos.Userprog.ProcessSteps
import Mathlib.Tactic.IntervalCases

/-!
# Physical memory

Frames are handed out under `addrLock`, so the check that memory is sufficient still
holds when the frames are taken. No frame is handed out twice, because none ever comes
back.
-/
namespace Nachos

open Concurrent

variable {initial : ℕ → Int} {a b : State SemId Pc Data} {tr es : List (Event SemId Ev)}
  {t u : Tid} {s : SpaceId}

/-- Between `addrLock->P()` and the `addrLock->V()` of the path taken. -/
def Pc.inAddrLock : Pc → Bool
  | .construct _ (.check _) | .construct _ (.page ..) | .construct _ .VFull
  | .construct _ (.V _) => true
  | _ => false

theorem addrLock_lock : (process initial).Lock .addrLock Pc.inAddrLock := by
  refine lock_of_steps rfl rfl ⟨rfl, fun _ => rfl⟩ rfl ?_ ?_ (fun _ _ _ _ => rfl) ?_ ?_
  · intro s' pc k hc
    cases hc <;> simp [Pc.inAddrLock]
  · intro s' pc k hc
    cases hc <;> simp [Pc.inAddrLock]
  · intro t d pc es k d' hl hk
    cases hl with
    | newSpace w n hpc hk =>
      rcases hpc with rfl | ⟨_, rfl⟩ <;> rcases hk with rfl | ⟨_, rfl⟩ | rfl <;> rfl
    | noProgram hk | callSem hk => rcases hk with ⟨_, rfl⟩ | ⟨_, rfl⟩ <;> rfl
    | user r hk => cases hk <;> rfl
    | removeFinish ho hu => split <;> rfl
    | halt | loadFails => exact absurd rfl hk
    | _ => rfl
  · intro t d d' pc es c f hc hf
    have hl := localStep_of_code hc hf
    show false = pc.inAddrLock
    generalize hk : Pc.halted = k at hl
    cases hl with
    | halt hpc => cases pc <;> first | rfl | exact absurd rfl (hpc _ _)
    | newSpace w n hpc => rcases hpc with rfl | ⟨_, rfl⟩ <;> rfl
    | full | fits | page | lastPage => cases hk
    | _ => rfl

/-- The frames of all page tables are the marked bits, each in one place of one table. The
marked bits are the lowest ones, because `Find` takes the first and none is cleared. -/
structure Frames (m : BitMap) (frames : SpaceId → List Int) : Prop where
  numBits : m.numBits = 256
  marked : ∀ r : Int, (∃ s, r ∈ frames s) ↔ ∃ i ∈ m.marked, r = (i : Int)
  nodup : ∀ s, (frames s).Nodup
  disjoint : ∀ s s' r, r ∈ frames s → r ∈ frames s' → s = s'
  lowest : m.marked = Finset.range m.marked.card

theorem frames_ofSize : Frames (.ofSize 256) fun _ => [] := by
  refine ⟨rfl, ?_, ?_, ?_, ?_⟩ <;> simp

/-- One `Find` for the table of `s`. -/
theorem Frames.find {m : BitMap} {frames : SpaceId → List Int} (h : Frames m frames)
    (hm : 0 < m.numClear) (s : SpaceId) :
    m.find.1 = m.marked.card ∧ m.find.2.numClear + 1 = m.numClear ∧
      m.find.2.marked.card = m.marked.card + 1 ∧
      Frames m.find.2 (Function.update frames s (frames s ++ [m.find.1])) := by
  obtain ⟨i, hi, ht, hlow, hf⟩ := m.find_spec hm
  have hnew : i ∉ m.marked := by simp [ht]
  -- everything below `i` is marked, and `i` is not
  have hcard : i = m.marked.card := by
    apply le_antisymm
    · have : Finset.range i ⊆ m.marked := by
        intro j hj
        simp only [Finset.mem_range] at hj
        exact BitMap.mem_marked.mpr ⟨hj.trans hi, hlow j hj⟩
      simpa using Finset.card_le_card this
    · by_contra hlt
      rw [h.lowest, Finset.mem_range] at hnew
      omega
  have hfresh : ∀ s', (i : Int) ∉ frames s' := by
    intro s' hs
    obtain ⟨j, hj, he⟩ := (h.marked i).mp ⟨s', hs⟩
    have : i = j := by omega
    exact hnew (this ▸ hj)
  have hmem : ∀ s' r, r ∈ Function.update frames s (frames s ++ [(i : Int)]) s' ↔
      r ∈ frames s' ∨ (s' = s ∧ r = i) := by
    intro s' r
    by_cases hs : s' = s
    · subst hs
      simp
    · simp [hs]
  simp only [hf]
  refine ⟨by omega, BitMap.numClear_mark hi ht, ?_, ?_⟩
  · rw [BitMap.marked_mark hi, Finset.card_insert_of_notMem hnew]
  constructor
  · simpa using h.numBits
  · intro r
    simp only [hmem, BitMap.marked_mark hi, Finset.mem_insert]
    constructor
    · rintro ⟨s', hs | ⟨_, rfl⟩⟩
      · obtain ⟨j, hj, rfl⟩ := (h.marked r).mp ⟨s', hs⟩
        exact ⟨j, .inr hj, rfl⟩
      · exact ⟨i, .inl rfl, rfl⟩
    · rintro ⟨j, rfl | hj, rfl⟩
      · exact ⟨s, .inr ⟨rfl, rfl⟩⟩
      · obtain ⟨s', hs⟩ := (h.marked j).mpr ⟨j, hj, rfl⟩
        exact ⟨s', .inl hs⟩
  · intro s'
    by_cases hs : s' = s
    · subst hs
      rw [Function.update_self, List.nodup_append]
      refine ⟨h.nodup s', List.nodup_singleton _, ?_⟩
      intro x hx y hy hxy
      rw [List.mem_singleton] at hy
      exact hfresh s' (by rwa [← hy, ← hxy])
    · simpa [hs] using h.nodup s'
  · intro s₁ s₂ r h₁ h₂
    rw [hmem] at h₁ h₂
    rcases h₁ with h₁ | ⟨rfl, rfl⟩ <;> rcases h₂ with h₂ | ⟨rfl, h₂⟩
    · exact h.disjoint s₁ s₂ r h₁ h₂
    · exact absurd (h₂ ▸ h₁) (hfresh s₁)
    · exact absurd h₂ (hfresh s₂)
    · rfl
  · rw [BitMap.marked_mark hi, Finset.card_insert_of_notMem hnew, Finset.range_add_one,
      ← h.lowest, ← hcard]

/-- How far the page table of `x` is filled when its constructor is at a control point. -/
def AddrSpacePc.Filled (x : AddrSpace) : AddrSpacePc → Prop
  | .P _ | .check _ | .VFull => x.entries = []
  | .page h i => x.entries.length = i ∧ i ≤ x.numPages.toNat ∧ x.numPages = h.numPages
  | .V h | .load h => x.entries.length = x.numPages.toNat ∧ x.numPages = h.numPages
  | .done => True

/-- The invariant. Each address space under construction belongs to one thread, and while
its frames are being taken enough bits are clear. -/
structure MemoryInv (tr : List (Event SemId Ev)) (a : State SemId Pc Data) : Prop where
  frames : Frames a.data.gPhysPageBitMap fun s => (a.data.addrSpace s).frames
  unused : ∀ s, a.data.nextSpace ≤ s → (a.data.addrSpace s).entries = []
  filled : ∀ t < a.nextTid, ∀ s j, a.pc t = .construct s j →
    s < a.data.nextSpace ∧ j.Filled (a.data.addrSpace s)
  owner : ∀ t < a.nextTid, ∀ u < a.nextTid, ∀ s j j', a.pc t = .construct s j →
    a.pc u = .construct s j' → t = u
  room : ∀ t < a.nextTid, ∀ s h i, a.pc t = .construct s (.page h i) →
    h.numPages.toNat ≤ i + a.data.gPhysPageBitMap.numClear
  found : ∀ t, .act t (.find (-1)) ∉ tr

/-- No thread of `b` is at a point of a constructor where it was not in `a`. -/
def NoNewConstruct (a b : State SemId Pc Data) : Prop :=
  ∀ u < b.nextTid, ∀ s j, b.pc u = .construct s j → u < a.nextTid ∧ a.pc u = .construct s j

theorem noNewConstruct_goto {k : Pc} (hbt : b.nextTid = a.nextTid)
    (hbp : b.pc = Function.update a.pc t k) (hk : ∀ s j, k ≠ .construct s j) :
    NoNewConstruct a b := by
  intro u hu s j hpc
  rw [hbt] at hu
  rw [hbp] at hpc
  by_cases hut : u = t
  · simp [hut, hk] at hpc
  · exact ⟨hu, by simpa [hut] using hpc⟩

theorem noNewConstruct_fork {i : Int} {o : ObjectId} {d : Data} :
    NoNewConstruct a
      { (a.goto a.nextTid (.startProcess2 i)).goto t (.exec (.multexV i o a.nextTid)) with
        nextTid := a.nextTid + 1, data := d } := by
  intro u hu s j hj
  have hne : u ≠ t := by
    rintro rfl
    simp at hj
  have hun : u ≠ a.nextTid := by
    rintro rfl
    simp [hne] at hj
  exact ⟨lt_of_le_of_ne (Nat.lt_succ_iff.mp hu) hun, by simpa [hne, hun] using hj⟩

/-- Steps outside the constructors. -/
theorem MemoryInv.frame (h : MemoryInv tr a)
    (hbits : b.data.gPhysPageBitMap = a.data.gPhysPageBitMap)
    (hspace : b.data.addrSpace = a.data.addrSpace) (hnext : b.data.nextSpace = a.data.nextSpace)
    (hpc : NoNewConstruct a b) (hes : ∀ t, .act t (.find (-1)) ∉ es) :
    MemoryInv (tr ++ es) b where
  frames := by simpa only [hbits, hspace] using h.frames
  unused := by simpa only [hspace, hnext] using h.unused
  filled t ht s j hj := by
    obtain ⟨hlt, hj⟩ := hpc t ht s j hj
    simpa only [hnext, hspace] using h.filled t hlt s j hj
  owner t ht u hu s j j' hj hj' := by
    obtain ⟨hlt, hj⟩ := hpc t ht s j hj
    obtain ⟨hlu, hj'⟩ := hpc u hu s j' hj'
    exact h.owner t hlt u hlu s j j' hj hj'
  room t ht s x i hj := by
    obtain ⟨hlt, hj⟩ := hpc t ht s _ hj
    simpa only [hbits] using h.room t hlt s x i hj
  found t hm := by
    rcases List.mem_append.mp hm with hm | hm
    · exact h.found t hm
    · exact hes t hm

/-- A constructor moves on without taking a frame, and may change the size it has recorded. -/
theorem MemoryInv.move (h : MemoryInv tr a) (ht : t < a.nextTid) {j : AddrSpacePc}
    (hpc : a.pc t = .construct s j) (j' : AddrSpacePc) (x : AddrSpace)
    (hbt : b.nextTid = a.nextTid) (hbp : b.pc = Function.update a.pc t (.construct s j'))
    (hbs : b.data.addrSpace = Function.update a.data.addrSpace s x)
    (hbits : b.data.gPhysPageBitMap = a.data.gPhysPageBitMap)
    (hnext : b.data.nextSpace = a.data.nextSpace)
    (hx : x.entries = (a.data.addrSpace s).entries) (hf : j'.Filled x)
    (hroom : ∀ y i, j' = .page y i → y.numPages.toNat ≤ i + a.data.gPhysPageBitMap.numClear)
    (hes : ∀ t, .act t (.find (-1)) ∉ es) :
    MemoryInv (tr ++ es) b := by
  have hentries : ∀ s', (b.data.addrSpace s').entries = (a.data.addrSpace s').entries := by
    intro s'
    by_cases hs : s' = s
    · simp [hbs, hs, hx]
    · simp [hbs, hs]
  constructor
  · simpa only [AddrSpace.frames, hentries, hbits] using h.frames
  · simpa only [hentries, hnext] using h.unused
  · intro u hu s' i hi
    rw [hbt] at hu
    rw [hnext]
    by_cases hut : u = t
    · subst hut
      simp only [hbp, Function.update_self, Pc.construct.injEq] at hi
      obtain ⟨rfl, rfl⟩ := hi
      exact ⟨(h.filled u hu s j hpc).1, by simpa [hbs] using hf⟩
    · have hi : a.pc u = .construct s' i := by simpa [hbp, hut] using hi
      have hs : s' ≠ s := fun he => hut (h.owner u hu t ht s i j (he ▸ hi) hpc)
      simpa [hbs, hs] using h.filled u hu s' i hi
  · intro u hu w hw s' i i' hi hi'
    rw [hbt] at hu hw
    -- where a thread is inside constructors, it was so before, of the same space
    have hback : ∀ v, ∀ i, b.pc v = .construct s' i → ∃ i, a.pc v = .construct s' i := by
      intro v i hv
      by_cases hvt : v = t
      · subst hvt
        simp only [hbp, Function.update_self, Pc.construct.injEq] at hv
        exact ⟨j, hv.1 ▸ hpc⟩
      · exact ⟨i, by simpa [hbp, hvt] using hv⟩
    obtain ⟨i₁, h₁⟩ := hback u i hi
    obtain ⟨i₂, h₂⟩ := hback w i' hi'
    exact h.owner u hu w hw s' i₁ i₂ h₁ h₂
  · intro u hu s' y i hi
    rw [hbt] at hu
    rw [hbits]
    by_cases hut : u = t
    · subst hut
      simp only [hbp, Function.update_self, Pc.construct.injEq] at hi
      exact hroom y i hi.2
    · exact h.room u hu s' y i (by simpa [hbp, hut] using hi)
  · intro u hm
    rcases List.mem_append.mp hm with hm | hm
    · exact h.found u hm
    · exact hes u hm

/-- `new AddrSpace(..)` in a thread that is in no constructor yet. -/
theorem MemoryInv.new (h : MemoryInv tr a) {k : Pc} (w n : BitVec 32)
    (hk : k = .construct a.data.nextSpace .done ∨ (∃ x, k = .construct a.data.nextSpace (.P x)) ∨
      k = .halted)
    (hbt : b.nextTid = a.nextTid) (hbp : b.pc = Function.update a.pc t k)
    (hbd : b.data = { a.data.setAddrSpace a.data.nextSpace ⟨.wild w, n, []⟩ with
      nextSpace := a.data.nextSpace + 1 }) :
    MemoryInv (tr ++ []) b := by
  rw [List.append_nil]
  have hbs : b.data.addrSpace = Function.update a.data.addrSpace a.data.nextSpace ⟨.wild w, n, []⟩ := by
    rw [hbd]
    rfl
  have hentries : ∀ s, (b.data.addrSpace s).entries = (a.data.addrSpace s).entries := by
    intro s
    by_cases hs : s = a.data.nextSpace
    · simp [hbs, hs, h.unused]
    · simp [hbs, hs]
  have hbits : b.data.gPhysPageBitMap = a.data.gPhysPageBitMap := by rw [hbd]; rfl
  have hnext : b.data.nextSpace = a.data.nextSpace + 1 := by rw [hbd]
  -- the new space is in no other thread's hands
  have hold : ∀ u < a.nextTid, ∀ s j, a.pc u = .construct s j → s ≠ a.data.nextSpace :=
    fun u hu s j hj => (h.filled u hu s j hj).1.ne
  have hnew : ∀ s j, k = .construct s j → s = a.data.nextSpace ∧ j.Filled ⟨.wild w, n, []⟩ ∧
      ∀ y i, j ≠ .page y i := by
    rintro s j rfl
    rcases hk with hk | ⟨x, hk⟩ | hk <;> simp only [Pc.construct.injEq, reduceCtorEq] at hk
    all_goals
      obtain ⟨rfl, rfl⟩ := hk
      simp [AddrSpacePc.Filled]
  constructor
  · simpa only [AddrSpace.frames, hentries, hbits] using h.frames
  · intro s hs
    rw [hnext] at hs
    rw [hentries]
    exact h.unused s (Nat.le_of_succ_le hs)
  · intro u hu s j hj
    rw [hbt] at hu
    rw [hnext]
    by_cases hut : u = t
    · rw [hbp, hut, Function.update_self] at hj
      obtain ⟨rfl, hf, _⟩ := hnew s j hj
      exact ⟨Nat.lt_succ_self _, by simpa [hbs] using hf⟩
    · have hj : a.pc u = .construct s j := by simpa [hbp, hut] using hj
      obtain ⟨hlt, hf⟩ := h.filled u hu s j hj
      exact ⟨Nat.lt_succ_of_lt hlt, by simpa [hbs, hold u hu s j hj] using hf⟩
  · intro u hu v hv s j j' hj hj'
    rw [hbt] at hu hv
    by_cases hut : u = t <;> by_cases hvt : v = t
    · rw [hut, hvt]
    · rw [hbp, hut, Function.update_self] at hj
      have hj' : a.pc v = .construct s j' := by simpa [hbp, hvt] using hj'
      exact absurd (hnew s j hj).1 (hold v hv s j' hj')
    · rw [hbp, hvt, Function.update_self] at hj'
      have hj : a.pc u = .construct s j := by simpa [hbp, hut] using hj
      exact absurd (hnew s j' hj').1 (hold u hu s j hj)
    · exact h.owner u hu v hv s j j' (by simpa [hbp, hut] using hj) (by simpa [hbp, hvt] using hj')
  · intro u hu s y i hj
    rw [hbt] at hu
    rw [hbits]
    by_cases hut : u = t
    · rw [hbp, hut, Function.update_self] at hj
      exact absurd rfl ((hnew s _ hj).2.2 y i)
    · exact h.room u hu s y i (by simpa [hbp, hut] using hj)
  · exact h.found

/-- One turn of the page table loop. Nobody else is in the loop, so nobody else relies on
the number of clear bits. -/
theorem MemoryInv.page (h : MemoryInv tr a) (hx : Exclusive .addrLock Pc.inAddrLock tr a)
    (ht : t < a.nextTid) {y : NoffHeader} {i : ℕ} (hpc : a.pc t = .construct s (.page y i))
    (hi : i < (a.data.addrSpace s).numPages.toNat) :
    MemoryInv (tr ++ [.act t (.find a.data.gPhysPageBitMap.find.1),
        .act t (.bzero (a.data.gPhysPageBitMap.find.1 * PageSize) PageSize)])
      { a.goto t (.construct s (.page y (i + 1))) with
        data := { a.data.setAddrSpace s
            { a.data.addrSpace s with
              entries := (a.data.addrSpace s).entries ++
                [⟨i, a.data.gPhysPageBitMap.find.1, true, false, false, false⟩] } with
          gPhysPageBitMap := a.data.gPhysPageBitMap.find.2 } } := by
  obtain ⟨hs, hlen, hle, hnum⟩ := h.filled t ht s _ hpc
  have hroom := h.room t ht s y i hpc
  rw [← hnum] at hroom
  have hclear : 0 < a.data.gPhysPageBitMap.numClear := by omega
  obtain ⟨hfind, hdec, _, hframes⟩ := h.frames.find hclear s
  have halone : ∀ u < a.nextTid, ∀ s' j, a.pc u = .construct s' j →
      (Pc.construct s' j).inAddrLock = true → u = t := by
    intro u hu s' j hj hl
    exact hx.unique u t ⟨hu, by rw [hj]; exact hl⟩ ⟨ht, by rw [hpc]; rfl⟩
  constructor
  · refine cast (congrArg _ ?_) hframes
    funext s'
    by_cases hss : s' = s
    · subst hss
      simp [AddrSpace.frames, Data.setAddrSpace]
    · simp [AddrSpace.frames, Data.setAddrSpace, hss]
  · intro s' hs'
    have hne : s' ≠ s := fun he => absurd hs (by rw [← he]; exact not_lt.mpr hs')
    simpa [Data.setAddrSpace, hne] using h.unused s' hs'
  · intro u hu s' j hj
    by_cases hut : u = t
    · subst hut
      simp only [State.goto_pc, Function.update_self, Pc.construct.injEq] at hj
      obtain ⟨rfl, rfl⟩ := hj
      rw [hnum] at hi
      exact ⟨hs, by simpa [AddrSpacePc.Filled, Data.setAddrSpace, hlen, hnum] using Nat.succ_le_of_lt hi⟩
    · have hj : a.pc u = .construct s' j := by simpa [hut] using hj
      have hne : s' ≠ s := fun he => hut (h.owner u hu t ht s j _ (he ▸ hj) hpc)
      simpa [Data.setAddrSpace, hne] using h.filled u hu s' j hj
  · intro u hu v hv s' j j' hj hj'
    have hback : ∀ w j, Function.update a.pc t (.construct s (.page y (i + 1))) w =
        .construct s' j → ∃ j, a.pc w = .construct s' j := by
      intro w j hw
      by_cases hwt : w = t
      · subst hwt
        simp only [Function.update_self, Pc.construct.injEq] at hw
        exact ⟨_, hw.1 ▸ hpc⟩
      · exact ⟨j, by simpa [hwt] using hw⟩
    obtain ⟨j₁, h₁⟩ := hback u j hj
    obtain ⟨j₂, h₂⟩ := hback v j' hj'
    exact h.owner u hu v hv s' j₁ j₂ h₁ h₂
  · intro u hu s' z i' hj
    by_cases hut : u = t
    · subst hut
      simp only [State.goto_pc, Function.update_self, Pc.construct.injEq,
        AddrSpacePc.page.injEq] at hj
      obtain ⟨rfl, rfl, rfl⟩ := hj
      rw [hnum] at hroom
      show y.numPages.toNat ≤ i + 1 + a.data.gPhysPageBitMap.find.2.numClear
      omega
    · have hj : a.pc u = .construct s' (.page z i') := by simpa [hut] using hj
      exact absurd (halone u hu s' _ hj rfl) hut
  · intro u hm
    simp only [List.mem_append, List.mem_cons, Event.act.injEq, Ev.find.injEq, reduceCtorEq,
      and_false, List.not_mem_nil, or_false] at hm
    rcases hm with hm | ⟨_, hm⟩
    · exact h.found u hm
    · omega

theorem memory_act {k : Pc} {d : Data} {evs : List Ev} (ht : t < a.nextTid)
    (hl : LocalStep t a.data (a.pc t) evs k d) (hx : Exclusive .addrLock Pc.inAddrLock tr a)
    (h : MemoryInv tr a) :
    MemoryInv (tr ++ evs.map (.act t)) { a.goto t k with data := d } := by
  generalize hpc : a.pc t = pc at hl
  cases hl with
  | newSpace w n _ hk => exact h.new w n hk rfl rfl rfl
  | full hf =>
    exact h.move ht hpc .VFull { a.data.addrSpace _ with numPages := 0 } rfl rfl rfl rfl rfl rfl
      (h.filled t ht _ _ hpc).2 (by simp) (by simp)
  | @fits s y hf =>
    refine h.move ht hpc (.page y 0)
      { a.data.addrSpace s with pageTable := .allocated s, numPages := y.numPages }
      rfl rfl rfl rfl rfl rfl ?_ ?_ (by simp)
    · have : (a.data.addrSpace s).entries = [] := (h.filled t ht _ _ hpc).2
      simp [AddrSpacePc.Filled, this]
    · rintro _ _ ⟨⟩
      simpa using hf
  | page hi => exact h.page hx ht hpc hi
  | @lastPage s y i hi =>
    obtain ⟨_, hlen, hle, hnum⟩ := h.filled t ht _ _ hpc
    exact h.move ht hpc (.V y) (a.data.addrSpace s) rfl rfl (by simp) rfl rfl rfl
      ⟨by omega, hnum⟩ (by simp) (by simp)
  | @load s y =>
    exact h.move ht hpc .done (a.data.addrSpace s) rfl rfl (by simp) rfl rfl rfl
      trivial (by simp) (by simp)
  | user r hk => exact h.frame rfl rfl rfl (noNewConstruct_goto rfl rfl (by cases hk <;> simp)) (by simp)
  | noProgram hk =>
    exact h.frame rfl rfl rfl (noNewConstruct_goto rfl rfl (by rcases hk with rfl | rfl <;> simp)) (by simp)
  | callSem hk =>
    refine h.frame rfl rfl rfl (noNewConstruct_goto rfl rfl ?_) (by simp)
    rcases hk with ⟨_, rfl⟩ | ⟨_, rfl⟩ <;> simp
  | halt _ hes =>
    refine h.frame rfl rfl rfl (noNewConstruct_goto rfl rfl (by simp)) ?_
    rcases hes with rfl | rfl <;> simp [freeSpace]
  | removeFinish ho hu =>
    refine h.frame rfl rfl rfl (noNewConstruct_goto rfl rfl (by split <;> simp)) ?_
    simp [freeSpace]
  | _ => exact h.frame rfl rfl rfl (noNewConstruct_goto rfl rfl (by simp)) (by simp)

theorem memory_step (hs : ProcessStep a es b) (hx : Exclusive .addrLock Pc.inAddrLock tr a)
    (h : MemoryInv tr a) : MemoryInv (tr ++ es) b := by
  cases hs with
  | @P t s k ht hc hv =>
    generalize hpc : a.pc t = pc at hc
    cases hc with
    | @construct s y =>
      exact h.move ht hpc (.check y) (a.data.addrSpace s) rfl rfl (by simp) rfl rfl rfl
        (h.filled t ht _ _ hpc).2 (by simp) (by simp)
    | _ => exact h.frame rfl rfl rfl (noNewConstruct_goto rfl rfl (by simp)) (by simp)
  | @V t s k ht hc =>
    generalize hpc : a.pc t = pc at hc
    cases hc with
    | @constructFull s =>
      exact h.move ht hpc .done (a.data.addrSpace s) rfl rfl (by simp) rfl rfl rfl
        trivial (by simp) (by simp)
    | @construct s y =>
      exact h.move ht hpc (.load y) (a.data.addrSpace s) rfl rfl (by simp) rfl rfl rfl
        (h.filled t ht _ _ hpc).2 (by simp) (by simp)
    | _ => exact h.frame rfl rfl rfl (noNewConstruct_goto rfl rfl (by simp)) (by simp)
  | handler => exact h.frame rfl rfl rfl (fun u hu s j hj => ⟨hu, hj⟩) (by simp)
  | tick ht hc => exact h.frame rfl rfl rfl (noNewConstruct_goto rfl rfl (by simp)) (by simp)
  | fork ht hc => exact h.frame rfl rfl rfl noNewConstruct_fork (by simp)
  | act ht hl => exact memory_act ht hl hx h
  | hook => exact h.frame rfl rfl rfl (fun u hu s j hj => ⟨hu, hj⟩) (by simp)

theorem memory_run (h : (atomic (process initial)).Run tr a) : MemoryInv tr a := by
  refine h.invariant ?_ ?_
  · rintro a rfl
    refine ⟨frames_ofSize, ?_, ?_, ?_, ?_, ?_⟩ <;>
      simp [Program.initial, process, initialData]
  · intro tr a es b hr hi hs
    exact memory_step (processStep_of_step hs) (exclusive_run addrLock_lock hr) hi

section Kernel

variable {σ : Kernel SemId Pc Data} {tr : List (KEvent SemId Ev)}

def KEvent.freed : KEvent SemId Ev → Bool
  | .sync (.act _ (.freed _)) => true
  | _ => false

end Kernel

end Nachos
