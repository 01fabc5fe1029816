import Nachos.Threads.STable
import Nachos.Userprog.FileNames

/-!
# The names of semaphores

`class Sem` keeps a copy of its name in an array of 50 bytes, in front of its pointer. The system
calls let longer names through, and `strcpy` takes them.
-/
namespace Nachos

open Bytes (Byte)
open Command (onSecond)

/-- Where `new` puts the objects: the blocks of different `Sem`s do not overlap, and the
semaphores in them have different addresses. -/
structure Allocator where
  block : ℕ → Int
  semaphore : ℕ → BitVec 32
  apart : ∀ m n, m < n → block m + 56 ≤ block n ∨ block n + 56 ≤ block m
  distinct : ∀ m < MAX_SEMAPHORE, ∀ n < MAX_SEMAPHORE, semaphore m = semaphore n → m = n

/-- The state behind the three system calls. The pointers of `semTab` lead into `storage`. Of each
byte that `strcpy` has written, `copied` has the address, with that of the name it belongs to;
`acted` has the semaphores that `P` or `V` was called on. -/
structure SemKernel where
  memory : UserMemory
  storage : Bytes.Memory
  bm : BitMap
  semTab : ℕ → Option Int
  made : ℕ
  copied : List (Int × Int)
  acted : List (BitVec 32)

namespace SemKernel

instance : HasMemory SemKernel where
  memory s := s.memory
  setMemory s u := { s with memory := u }
  memory_setMemory _ _ := rfl
  setMemory_setMemory _ _ _ := rfl
  setMemory_memory _ := rfl

def readMem (addr : BitVec 32) : Command SemKernel (BitVec 32) := fun s =>
  match s.memory.readByte addr with
  | .ok (value, memory) => some (value, { s with memory })
  | .error _ => none

/-- `strcmp(name, p) == 0`. -/
def strcmpEq : List Byte → Bytes.Memory → Int → Bool
  | [], m, p => m p = 0
  | c :: name, m, p => m p = c && strcmpEq name m (p + 1)

/-- The loop that `Create`, `Wait` and `Signal` have in common, over the slots `is`. -/
def lookup (s : SemKernel) (name : List Byte) : List ℕ → Option (Option Int)
  | [] => some none
  | i :: is =>
    if s.bm.test i then
      match s.semTab i with
      | none => none
      | some p => if strcmpEq name s.storage p then some (some p) else s.lookup name is
    else s.lookup name is

def find (s : SemKernel) (name : List Byte) : Option (Option Int) :=
  s.lookup name (List.range MAX_SEMAPHORE)

/-- The offset of `Semaphore *sem` in `class Sem`, behind `char name[50]`. -/
def semOffset : Int := 52

/-- The constructor of `Sem` at `p`: `strcpy`, and then the pointer to the new semaphore. -/
def newSem (p : Int) (name : List Byte) (sem : BitVec 32) (s : SemKernel) : SemKernel :=
  { s with
    storage := Bytes.store (Bytes.store s.storage p (name ++ [0])) (p + semOffset)
      (Bytes.ofWord sem)
    copied := s.copied ++ (List.range (name.length + 1)).map fun j : ℕ => (p, p + j) }

/-- `STable::Create`. -/
def create (a : Allocator) (name : List Byte) : Command SemKernel (BitVec 32) := fun s =>
  match s.find name with
  | none => none
  | some (some _) => some (-1, s)
  | some none =>
    let r := s.bm.find
    if r.1 < 0 then some (-1, { s with bm := r.2 })
    else
      let p := a.block s.made
      some (0, { newSem p name (a.semaphore s.made) s with
        bm := r.2
        semTab := Function.update s.semTab r.1.toNat (some p)
        made := s.made + 1 })

/-- The pointer `sem` of the object at `p`. -/
def semAt (m : Bytes.Memory) (p : Int) : BitVec 32 :=
  Bytes.toWord ((List.range 4).map fun j : ℕ => m (p + semOffset + j))

/-- `STable::Wait` and `Signal`, up to their call of `P` or `V`. -/
def act (name : List Byte) : Command SemKernel (BitVec 32) := fun s =>
  match s.find name with
  | none => none
  | some none => some (-1, s)
  | some (some p) => some (0, { s with acted := s.acted ++ [semAt s.storage p] })

def services (a : Allocator) : Services SemKernel :=
  { Services.silent with
    readMem := readMem
    semCreate := fun name _ => create a name
    semWait := act
    semSignal := act }

/-- `STable::STable`, in storage with anything in it. -/
def start (memory : UserMemory) (storage : Bytes.Memory) : SemKernel where
  memory := memory
  storage := storage
  bm := .ofSize MAX_SEMAPHORE
  semTab _ := none
  made := 0
  copied := []
  acted := []

theorem readsMemory (a : Allocator) : (services a).ReadsMemory := fun _ _ => rfl

/-! ## What is in storage -/

variable {m m' : Bytes.Memory} {p q : Int} {name other : List Byte} {sem : BitVec 32}

/-- The string at `p` is `name`. -/
def Named (m : Bytes.Memory) (p : Int) (name : List Byte) : Prop :=
  ∀ j ≤ name.length, m (p + j) = (name ++ [0]).getD j 0

theorem named_cons {c : Byte} : Named m p (c :: name) ↔ m p = c ∧ Named m (p + 1) name := by
  constructor
  · intro h
    refine ⟨?_, fun j hj => ?_⟩
    · have := h 0 (Nat.zero_le _)
      rwa [Int.natCast_zero, Int.add_zero] at this
    · have := h (j + 1) (Nat.succ_le_succ hj)
      rw [Int.natCast_add_one, Int.add_comm j, ← Int.add_assoc] at this
      exact this
  · rintro ⟨hc, h⟩ j hj
    cases j with
    | zero =>
      rw [Int.natCast_zero, Int.add_zero]
      exact hc
    | succ j =>
      rw [Int.natCast_add_one, Int.add_comm (j : Int), ← Int.add_assoc]
      exact h j (Nat.le_of_succ_le_succ hj)

/-- `strcmp` compares with the string that is there. -/
theorem strcmpEq_iff (h : Named m p other) (hn : (0 : Byte) ∉ name) (ho : (0 : Byte) ∉ other) :
    strcmpEq name m p = true ↔ name = other := by
  induction name generalizing p other with
  | nil =>
    cases other with
    | nil =>
      refine iff_of_true ?_ rfl
      have := h 0 le_rfl
      rw [Int.natCast_zero, Int.add_zero] at this
      simpa [strcmpEq] using this
    | cons o other =>
      refine iff_of_false ?_ (List.cons_ne_nil _ _).symm
      have := (named_cons.mp h).1
      simp only [strcmpEq, this, decide_eq_true_eq]
      rintro rfl
      exact ho List.mem_cons_self
  | cons c name ih =>
    cases other with
    | nil =>
      refine iff_of_false ?_ (List.cons_ne_nil _ _)
      have h0 := h 0 le_rfl
      rw [Int.natCast_zero, Int.add_zero] at h0
      simp only [strcmpEq, Bool.and_eq_true, decide_eq_true_eq]
      rintro ⟨hc, -⟩
      rw [h0] at hc
      exact hn (hc ▸ List.mem_cons_self)
    | cons o other =>
      obtain ⟨ho', hrest⟩ := named_cons.mp h
      have ih := ih hrest (fun hm => hn (List.mem_cons_of_mem _ hm))
        fun hm => ho (List.mem_cons_of_mem _ hm)
      simp only [strcmpEq, Bool.and_eq_true, decide_eq_true_eq, ih, ho', List.cons.injEq]
      exact and_congr_left fun _ => eq_comm

/-- The object at `p` is in order. -/
structure Holds (m : Bytes.Memory) (p : Int) (name : List Byte) (sem : BitVec 32) : Prop where
  short : name.length < Sem.nameSize
  named : Named m p name
  pointer : semAt m p = sem

/-- It depends on its own bytes only. -/
theorem Holds.congr (h : Holds m p name sem) (hm : ∀ x, p ≤ x → x < p + 56 → m' x = m x) :
    Holds m' p name sem := by
  have hshort := h.short
  simp only [Sem.nameSize] at hshort
  refine ⟨h.short, fun j hj => ?_, ?_⟩
  · rw [hm _ (by omega) (by omega)]
    exact h.named j hj
  · rw [← h.pointer, semAt, semAt]
    congr 1
    apply List.map_congr_left
    intro j hj
    rw [List.mem_range] at hj
    exact hm _ (by simp only [semOffset]; omega) (by simp only [semOffset]; omega)

/-- It writes to the object only, if the name fits. -/
theorem newSem_storage (hshort : name.length < Sem.nameSize) (s : SemKernel) (sem : BitVec 32)
    {x : Int} (hx : x < p ∨ p + 56 ≤ x) : (newSem p name sem s).storage x = s.storage x := by
  simp only [Sem.nameSize] at hshort
  have hname : (name ++ [(0 : Byte)]).length = name.length + 1 := by simp
  have hword : (Bytes.ofWord sem).length = 4 := rfl
  simp only [newSem, semOffset]
  rw [Bytes.store_of_not_mem (by omega), Bytes.store_of_not_mem (by omega)]

/-- The constructor leaves an object in order if the name fits. -/
theorem holds_newSem (hshort : name.length < Sem.nameSize) (s : SemKernel) (p : Int)
    (sem : BitVec 32) : Holds (newSem p name sem s).storage p name sem := by
  have hlt := hshort
  simp only [Sem.nameSize] at hlt
  have hname : (name ++ [(0 : Byte)]).length = name.length + 1 := by simp
  have hword : (Bytes.ofWord sem).length = 4 := rfl
  refine ⟨hshort, fun j hj => ?_, ?_⟩
  · simp only [newSem, semOffset]
    rw [Bytes.store_of_not_mem (by omega), Bytes.store_of_mem (by omega) (by omega)]
    congr 1
    omega
  · have hbytes : (List.range 4).map (fun j : ℕ => (newSem p name sem s).storage (p + semOffset + j)) =
        (List.range 4).map fun j => (Bytes.ofWord sem).getD j 0 := by
      apply List.map_congr_left
      intro j hj
      rw [List.mem_range] at hj
      simp only [newSem]
      rw [Bytes.store_of_mem (by omega) (by omega)]
      congr 1
      omega
    rw [semAt, hbytes]
    exact Bytes.toWord_ofWord sem []

/-! ## The table -/

/-- The table in storage is `t`: the `n`th `Sem` made is the entry whose semaphore has the number
`n`, and no byte was copied behind a name. -/
structure Represents (a : Allocator) (s : SemKernel) (t : STable) : Prop where
  wellFormed : t.WellFormed
  bm : s.bm = t.bm
  empty : ∀ i < MAX_SEMAPHORE, t.semTab i = none → s.semTab i = none
  entry : ∀ i < MAX_SEMAPHORE, ∀ x, t.semTab i = some x →
    x.sem.id < s.made ∧ s.semTab i = some (a.block x.sem.id) ∧
      Holds s.storage (a.block x.sem.id) x.name.chars (a.semaphore x.sem.id)
  made : s.made + t.bm.numClear = MAX_SEMAPHORE
  copied : ∀ w ∈ s.copied, w.1 ≤ w.2 ∧ w.2 < w.1 + Sem.nameSize

variable {a : Allocator} {s s' : SemKernel} {t : STable} {r r' : Registers} {str : List Byte}

theorem represents_start (u : UserMemory) (storage : Bytes.Memory) :
    Represents a (start u storage) STable.empty where
  wellFormed := STable.wellFormed_empty
  bm := rfl
  empty _ _ _ := rfl
  entry i _ x hx := by cases hx
  made := by simp [start, STable.empty]
  copied w hw := by cases hw

/-- The program, and what has been noted, are not part of the table. -/
theorem Represents.congr (h : Represents a s t) (hs : s'.storage = s.storage) (hb : s'.bm = s.bm)
    (ht : s'.semTab = s.semTab) (hm : s'.made = s.made) (hc : s'.copied = s.copied) :
    Represents a s' t where
  wellFormed := h.wellFormed
  bm := hb.trans h.bm
  empty := ht ▸ h.empty
  entry := by rw [hm, ht, hs]; exact h.entry
  made := hm ▸ h.made
  copied := hc ▸ h.copied

/-- The loop finds what it finds in the table. -/
theorem Represents.lookup (h : Represents a s t) (name : CString) {is : List ℕ}
    (his : ∀ i ∈ is, i < MAX_SEMAPHORE) : s.lookup name.chars is =
      (t.lookup name is).map (Option.map fun x => a.block x.sem.id) := by
  induction is with
  | nil => rfl
  | cons i is ih =>
    have hi := his i List.mem_cons_self
    have ih := ih fun j hj => his j (List.mem_cons_of_mem i hj)
    rw [SemKernel.lookup, STable.lookup, h.bm]
    split
    · cases hx : t.semTab i with
      | none =>
        rw [h.empty i hi hx]
        rfl
      | some x =>
        obtain ⟨-, hp, hholds⟩ := h.entry i hi x hx
        have hcmp := strcmpEq_iff hholds.named name.noNul x.name.noNul
        simp only [hp]
        by_cases hname : name = x.name
        · rw [if_pos hname, if_pos (hcmp.mpr (congrArg CString.chars hname))]
          rfl
        · have hchars : name.chars ≠ x.name.chars := by
            intro heq
            apply hname
            cases name
            cases hn : x.name
            simp_all
          rw [if_neg hname, if_neg (mt hcmp.mp hchars), ih]
    · exact ih

/-- What a call with a name finds. -/
theorem Represents.find (h : Represents a s t) (name : CString) : s.find name.chars =
    some ((t.toMap.lookup name).map fun sem => a.block sem.id) := by
  have hfind : t.find name = SemMap.find t.toMap name := STable.find_eq h.wellFormed
  rw [STable.find, SemMap.find] at hfind
  rw [SemKernel.find, h.lookup name fun i hi => List.mem_range.mp hi]
  cases hl : t.lookup name (List.range MAX_SEMAPHORE) with
  | none =>
    rw [hl] at hfind
    cases hfind
  | some o =>
    rw [hl, Option.map_some, Option.some.injEq] at hfind
    rw [← hfind, Option.map_some, Option.map_map]
    rfl

/-- The semaphore that `Wait` and `Signal` act on is the one in the table. -/
theorem Represents.act (h : Represents a s t) (name : CString) :
    (t.toMap.lookup name = none ∧ act name.chars s = some (-1, s)) ∨
    ∃ sem, t.toMap.lookup name = some sem ∧ sem.id < s.made ∧
      act name.chars s = some (0, { s with acted := s.acted ++ [a.semaphore sem.id] }) := by
  have hfind := h.find name
  cases hl : t.toMap.lookup name with
  | none =>
    rw [hl] at hfind
    refine .inl ⟨rfl, ?_⟩
    rw [SemKernel.act, hfind]
    rfl
  | some sem =>
    rw [hl] at hfind
    obtain ⟨i, hi, hx⟩ := (STable.lookup_toMap h.wellFormed).mp hl
    obtain ⟨hid, -, hholds⟩ := h.entry i hi _ hx
    refine .inr ⟨sem, rfl, hid, ?_⟩
    rw [SemKernel.act, hfind]
    simp only [Option.map_some, hholds.pointer]

/-- `Create` does not come to the constructor. -/
theorem create_refuses (a : Allocator) {name : List Byte} (hfind : s.find name ≠ none)
    (h : s.find name ≠ some none ∨ s.bm.numClear = 0) : create a name s = some (-1, s) := by
  obtain ⟨o, ho⟩ := Option.ne_none_iff_exists'.mp hfind
  cases o with
  | some p =>
    rw [create, ho]
  | none =>
    have hfull := h.resolve_left (not_not.mpr ho)
    rw [create, ho]
    simp only [BitMap.find_of_full hfull]
    rfl

/-- `Create` comes to the constructor. -/
theorem create_makes (a : Allocator) {name : List Byte} (hfind : s.find name = some none)
    (h : 0 < s.bm.numClear) : ∃ i < s.bm.numBits, s.bm.test i = false ∧
      create a name s = some (0, { newSem (a.block s.made) name (a.semaphore s.made) s with
        bm := s.bm.mark i
        semTab := Function.update s.semTab i (some (a.block s.made))
        made := s.made + 1 }) := by
  obtain ⟨i, hi, hfree, -, hf⟩ := BitMap.find_spec h
  have hnonneg : ¬(i : Int) < 0 := by omega
  refine ⟨i, hi, hfree, ?_⟩
  rw [create, hfind]
  simp only [hf, if_neg hnonneg, Int.toNat_natCast]

/-- A `Sem` with a name that fits is made. -/
theorem Represents.make (h : Represents a s t) {name : CString} (hnew : name ∉ t.toMap)
    (hshort : name.chars.length < Sem.nameSize) {i : ℕ} (hi : i < s.bm.numBits)
    (hfree : s.bm.test i = false) (semval : BitVec 32) :
    Represents a { newSem (a.block s.made) name.chars (a.semaphore s.made) s with
        bm := s.bm.mark i
        semTab := Function.update s.semTab i (some (a.block s.made))
        made := s.made + 1 } (t.put i ⟨name, ⟨s.made, semval⟩⟩) ∧
      (t.put i ⟨name, ⟨s.made, semval⟩⟩).toMap = t.toMap.insert name ⟨s.made, semval⟩ := by
  rw [h.bm] at hi hfree
  obtain ⟨hwf, hmap⟩ := STable.WellFormed.put (s := ⟨name, ⟨s.made, semval⟩⟩) h.wellFormed
    (h.wellFormed.numBits ▸ hi) hfree hnew
  refine ⟨⟨hwf, by rw [h.bm]; rfl, fun j hj hnone => ?_, fun j hj x hx => ?_, ?_, fun w hw => ?_⟩,
    hmap⟩
  · have hji : j ≠ i := by
      rintro rfl
      rw [STable.put_eq_some.mpr (.inl ⟨rfl, rfl⟩)] at hnone
      cases hnone
    have hold : t.semTab j = none := by simpa [STable.put, hji] using hnone
    exact (Function.update_of_ne hji _ _).trans (h.empty j hj hold)
  · rcases STable.put_eq_some.mp hx with ⟨rfl, rfl⟩ | ⟨hji, hold⟩
    · exact ⟨Nat.lt_succ_self _, Function.update_self _ _ _, holds_newSem hshort s _ _⟩
    · obtain ⟨hid, hp, hholds⟩ := h.entry j hj x hold
      refine ⟨Nat.lt_succ_of_lt hid, (Function.update_of_ne hji _ _).trans hp, ?_⟩
      refine hholds.congr fun y hy1 hy2 => newSem_storage hshort s _ ?_
      rcases a.apart _ _ hid with hbelow | habove
      · omega
      · omega
  · have hclear := BitMap.numClear_mark hi hfree
    have hmade := h.made
    show s.made + 1 + (t.bm.mark i).numClear = MAX_SEMAPHORE
    omega
  · rcases List.mem_append.mp hw with hw | hw
    · exact h.copied w hw
    · obtain ⟨j, hj, rfl⟩ := List.mem_map.mp hw
      rw [List.mem_range] at hj
      simp only [Sem.nameSize] at hshort ⊢
      omega

/-- The name fits, or `Create` does not come to the constructor: the name is taken or the table is
full. -/
def Fits (s : SemKernel) (name : List Byte) : Prop :=
  name.length < Sem.nameSize ∨ s.find name ≠ some none ∨ s.bm.numClear = 0

theorem Represents.create (h : Represents a s t) (name : CString) (hfits : Fits s name.chars)
    (semval : BitVec 32) : ∃ v s' t', create a name.chars s = some (v, s') ∧ Represents a s' t' ∧
      (v = -1 ∨ v = 0 ∧ s.made < MAX_SEMAPHORE ∧ name.chars.length < Sem.nameSize ∧
        t'.toMap = t.toMap.insert name ⟨s.made, semval⟩) := by
  have hfind := h.find name
  by_cases hmakes : s.find name.chars = some none ∧ 0 < s.bm.numClear
  · obtain ⟨hnone, hclear⟩ := hmakes
    have hshort : name.chars.length < Sem.nameSize := by
      rcases hfits with hshort | hfound | hfull
      · exact hshort
      · exact absurd hnone hfound
      · omega
    have hnew : name ∉ t.toMap := by
      rw [hfind, Option.some.injEq, Option.map_eq_none_iff] at hnone
      exact Finmap.lookup_eq_none.mp hnone
    obtain ⟨i, hi, hfree, hrun⟩ := create_makes a hnone hclear
    obtain ⟨hnext, hmap⟩ := h.make hnew hshort hi hfree semval
    have hmade := h.made
    rw [h.bm] at hclear
    exact ⟨0, _, _, hrun, hnext, .inr ⟨rfl, by omega, hshort, hmap⟩⟩
  · have hsome : s.find name.chars ≠ none := by
      rw [hfind]
      exact Option.some_ne_none _
    refine ⟨-1, s, t, create_refuses a hsome ?_, h, .inl rfl⟩
    by_cases hnone : s.find name.chars = some none
    · exact .inr (Nat.eq_zero_of_not_pos fun hclear => hmakes ⟨hnone, hclear⟩)
    · exact .inl hnone

end SemKernel

namespace Services

open Handler
open HasMemory
open UserMemory (Touched)

section

variable {S : Type} {s s' : S} {r : Registers} {v : BitVec 32}

/-- A handler from its service on. -/
def answer (f : BitVec 32 → BitVec 32) (c : Command S (BitVec 32)) : Handler S Unit := do
  let res ← onSecond c
  writeRegister 2 (f res)

theorem answer_of_some {c : Command S (BitVec 32)} (f : BitVec 32 → BitVec 32)
    (h : c s = some (v, s')) : answer f c (r, s) = some ((), r.writeRegister 2 (f v), s') :=
  Command.bind_of_some (Command.onSecond_of_some h)

variable [HasMemory S] {k : Services S} (hk : k.ReadsMemory) {str : List Byte}
  (hstr : (memory s).HasString (r 4) str)

include hk hstr

theorem exceptionCreateSemaphore_string : ∃ u, k.exceptionCreateSemaphore (r, s) =
    answer (fun res => if res = -1 then -1 else 0) (k.semCreate (str.take 255) (r 5))
      (r, setMemory s u) := by
  obtain ⟨buffer, u, hcopy, hname, -⟩ := user2System_string hk r 255 hstr (by decide)
  refine ⟨u, ?_⟩
  rw [exceptionCreateSemaphore, Command.bind_of_some (readRegister_apply 4 (r, s)),
    Command.bind_of_some (readRegister_apply 5 (r, s)), Command.bind_of_some hcopy, hname]
  rfl

theorem exceptionWait_string : ∃ u, k.exceptionWait (r, s) =
    answer id (k.semWait (str.take 255)) (r, setMemory s u) := by
  obtain ⟨buffer, u, hcopy, hname, -⟩ := user2System_string hk r 255 hstr (by decide)
  refine ⟨u, ?_⟩
  rw [exceptionWait, Command.bind_of_some (readRegister_apply 4 (r, s)),
    Command.bind_of_some hcopy, hname]
  rfl

theorem exceptionSignal_string : ∃ u, k.exceptionSignal (r, s) =
    answer id (k.semSignal (str.take 255)) (r, setMemory s u) := by
  obtain ⟨buffer, u, hcopy, hname, -⟩ := user2System_string hk r 255 hstr (by decide)
  refine ⟨u, ?_⟩
  rw [exceptionSignal, Command.bind_of_some (readRegister_apply 4 (r, s)),
    Command.bind_of_some hcopy, hname]
  rfl

end

end Services

namespace SemKernel

open HasMemory (setMemory)

variable {a : Allocator} {s s' : SemKernel} {t : STable} {r r' : Registers} {str : List Byte}
  {fuel : ℕ}

/-- What has been reached by calls of `CreateSemaphore`, `Wait` and `Signal` with strings of up to
255 characters, of which those that are to make a semaphore fit. In between, the programs do with
their memory what they like. -/
inductive Reached (a : Allocator) (fuel : ℕ) : SemKernel → Prop
  | start (u : UserMemory) (storage : Bytes.Memory) : Reached a fuel (start u storage)
  | user {s : SemKernel} (h : Reached a fuel s) (u : UserMemory) :
      Reached a fuel (setMemory s u)
  | create {s s' : SemKernel} {r r' : Registers} {str : List Byte} (h : Reached a fuel s)
      (hcode : r 2 = 18) (hstr : s.memory.HasString (r 4) str) (hlen : str.length ≤ 255)
      (hfits : Fits s str)
      (hrun : (services a).exceptionHandler fuel .SyscallException (r, s) = some ((), r', s')) :
      Reached a fuel s'
  | act {s s' : SemKernel} {r r' : Registers} {str : List Byte} (h : Reached a fuel s)
      (hcode : r 2 = 19 ∨ r 2 = 20) (hstr : s.memory.HasString (r 4) str) (hlen : str.length ≤ 255)
      (hrun : (services a).exceptionHandler fuel .SyscallException (r, s) = some ((), r', s')) :
      Reached a fuel s'

theorem Represents.setMemory (h : Represents a s t) (u : UserMemory) :
    Represents a (HasMemory.setMemory s u) t := h.congr rfl rfl rfl rfl rfl

/-- `CreateSemaphore` where the name fits. -/
theorem Represents.createCall (h : Represents a s t) (hcode : r 2 = 18) {name : CString}
    (hstr : s.memory.HasString (r 4) name.chars) (hlen : name.chars.length ≤ 255)
    (hfits : Fits s name.chars) (fuel : ℕ) : ∃ r' s' t',
      (services a).exceptionHandler fuel .SyscallException (r, s) = some ((), r', s') ∧
      Represents a s' t' ∧ (r' 2 = -1 ∨ r' 2 = 0 ∧ s.made < MAX_SEMAPHORE ∧
        name.chars.length < Sem.nameSize ∧ t'.toMap = t.toMap.insert name ⟨s.made, r 5⟩) := by
  have hhandler : (services a).handlerOf fuel (r 2).toNat =
      some (services a).exceptionCreateSemaphore := by
    rw [hcode]
    rfl
  obtain ⟨u, hstring⟩ := Services.exceptionCreateSemaphore_string (readsMemory a) hstr
  rw [List.take_of_length_le hlen] at hstring
  obtain ⟨v, s', t', hcreate, hnext, hcases⟩ := (h.setMemory u).create name hfits (r 5)
  have hanswer := Services.answer_of_some (r := r) (fun res => if res = -1 then -1 else 0) hcreate
  have hrun := Services.exceptionHandler_of_some hhandler (hstring.trans hanswer)
  refine ⟨_, s', t', hrun, hnext, ?_⟩
  rw [Registers.increaseProgramCounter_result, Registers.writeRegister, Function.update_self]
  rcases hcases with rfl | ⟨rfl, hmade⟩
  · exact .inl rfl
  · exact .inr ⟨rfl, hmade⟩

/-- `Wait` and `Signal`. -/
theorem Represents.actCall (h : Represents a s t) (hcode : r 2 = 19 ∨ r 2 = 20)
    (hstr : s.memory.HasString (r 4) str) {name : CString} (hname : name.chars = str.take 255)
    (fuel : ℕ) : ∃ r' s',
      (services a).exceptionHandler fuel .SyscallException (r, s) = some ((), r', s') ∧
      Represents a s' t ∧ ((t.toMap.lookup name = none ∧ s'.acted = s.acted) ∨
        ∃ sem, t.toMap.lookup name = some sem ∧ s'.acted = s.acted ++ [a.semaphore sem.id]) := by
  obtain ⟨u, hstring⟩ : ∃ u, ∃ handler, (services a).handlerOf fuel (r 2).toNat = some handler ∧
      handler (r, s) = Services.answer id (SemKernel.act name.chars) (r, HasMemory.setMemory s u) := by
    rw [hname]
    rcases hcode with hcode | hcode
    · obtain ⟨u, hstring⟩ := Services.exceptionWait_string (readsMemory a) hstr
      exact ⟨u, _, by rw [hcode]; rfl, hstring⟩
    · obtain ⟨u, hstring⟩ := Services.exceptionSignal_string (readsMemory a) hstr
      exact ⟨u, _, by rw [hcode]; rfl, hstring⟩
  obtain ⟨handler, hhandler, hstring⟩ := hstring
  have hcall : ∀ {v : BitVec 32} {s' : SemKernel},
      SemKernel.act name.chars (HasMemory.setMemory s u) = some (v, s') → ∃ r',
        (services a).exceptionHandler fuel .SyscallException (r, s) = some ((), r', s') := by
    intro v s' hact
    exact ⟨_, Services.exceptionHandler_of_some hhandler
      (hstring.trans (Services.answer_of_some id hact))⟩
  rcases (h.setMemory u).act name with ⟨hnone, hact⟩ | ⟨sem, hsome, -, hact⟩
  · obtain ⟨r', hrun⟩ := hcall hact
    exact ⟨r', _, hrun, h.setMemory u, .inl ⟨hnone, rfl⟩⟩
  · obtain ⟨r', hrun⟩ := hcall hact
    exact ⟨r', _, hrun, (h.setMemory u).congr rfl rfl rfl rfl rfl, .inr ⟨sem, hsome, rfl⟩⟩

theorem exists_cString {str : List Byte} (h : 0 ∉ str) : ∃ name : CString, name.chars = str :=
  ⟨⟨str, h⟩, rfl⟩

theorem Reached.represents (h : Reached a fuel s) : ∃ t, Represents a s t := by
  induction h with
  | start u storage => exact ⟨_, represents_start u storage⟩
  | user _ u ih =>
    obtain ⟨t, ht⟩ := ih
    exact ⟨t, ht.setMemory u⟩
  | create _ hcode hstr hlen hfits hrun ih =>
    obtain ⟨t, ht⟩ := ih
    obtain ⟨name, rfl⟩ := exists_cString hstr.nonzero
    obtain ⟨_, _, t', hrun', hnext, -⟩ := ht.createCall hcode hstr hlen hfits fuel
    rw [hrun] at hrun'
    cases hrun'
    exact ⟨t', hnext⟩
  | act _ hcode hstr hlen hrun ih =>
    obtain ⟨t, ht⟩ := ih
    obtain ⟨name, rfl⟩ := exists_cString hstr.nonzero
    obtain ⟨_, _, hrun', hnext, -⟩ :=
      ht.actCall hcode hstr (List.take_of_length_le hlen).symm fuel
    rw [hrun] at hrun'
    cases hrun'
    exact ⟨t, hnext⟩

end SemKernel

open SemKernel

/-- `CreateSemaphore` with `str` has come back, `strcpy` has written to nothing but the names, and
if the call was a success, `Wait` and `Signal` with a string, from any memory, act on the new
semaphore if the string is `str` and not if it is another. -/
def NameKept (a : Allocator) (fuel : ℕ) (str : List Byte) (r : Registers) (s : SemKernel) : Prop :=
  ∃ r' s', (services a).exceptionHandler fuel .SyscallException (r, s) = some ((), r', s') ∧
    (∀ w ∈ s'.copied, w.1 ≤ w.2 ∧ w.2 < w.1 + Sem.nameSize) ∧
    (r' 2 = 0 → ∀ (u : UserMemory) (q : Registers) (other : List Byte), (q 2 = 19 ∨ q 2 = 20) →
      u.HasString (q 4) other → ∃ q' s'', (services a).exceptionHandler fuel .SyscallException
        (q, HasMemory.setMemory s' u) = some ((), q', s'') ∧
        (s''.acted = s'.acted ++ [a.semaphore s.made] ↔ other = str))

variable {a : Allocator} {fuel : ℕ} {s : SemKernel} {r : Registers} {str : List Byte}

theorem take_eq_iff {n : ℕ} (hlen : str.length < n) (other : List Byte) :
    other.take n = str ↔ other = str := by
  constructor
  · intro h
    have hlength := congrArg List.length h
    rw [List.length_take] at hlength
    rwa [List.take_of_length_le (by omega)] at h
  · rintro rfl
    exact List.take_of_length_le hlen.le

/-- In a table with a new entry, a name finds the new semaphore exactly if it is that of the
entry. -/
theorem acts_iff {t t' : STable} {name other : CString} {acted acted' : List (BitVec 32)} {p : Prop}
    {semval : BitVec 32} (ht : Represents a s t) (hmade : s.made < MAX_SEMAPHORE)
    (hmap : t'.toMap = t.toMap.insert name ⟨s.made, semval⟩) (hp : other.chars = name.chars ↔ p)
    (hfound : (t'.toMap.lookup other = none ∧ acted' = acted) ∨
      ∃ sem, t'.toMap.lookup other = some sem ∧ acted' = acted ++ [a.semaphore sem.id]) :
    acted' = acted ++ [a.semaphore s.made] ↔ p := by
  rw [← hp]
  by_cases heq : other = name
  · refine iff_of_true ?_ (congrArg CString.chars heq)
    rw [hmap, heq, Finmap.lookup_insert] at hfound
    rcases hfound with ⟨hnone, -⟩ | ⟨sem, hsome, hacted⟩
    · cases hnone
    · cases hsome
      exact hacted
  · have hchars : other.chars ≠ name.chars := by
      intro h
      apply heq
      cases other
      cases name
      cases h
      rfl
    refine iff_of_false ?_ hchars
    rw [hmap, Finmap.lookup_insert_of_ne _ heq] at hfound
    rcases hfound with ⟨-, hacted⟩ | ⟨sem, hsome, hacted⟩
    · rw [hacted]
      simp
    · obtain ⟨i, hi, hx⟩ := (STable.lookup_toMap ht.wellFormed).mp hsome
      obtain ⟨hid, -, -⟩ := ht.entry i hi _ hx
      rw [hacted, List.append_cancel_left_eq, List.cons.injEq, and_iff_left rfl]
      intro hsame
      have := a.distinct _ (hid.trans hmade) _ hmade hsame
      exact Nat.ne_of_lt hid this

/-- Names are kept exactly if they fit or no semaphore is made. -/
theorem create_name_iff (h : Reached a fuel s) (hcode : r 2 = 18)
    (hstr : s.memory.HasString (r 4) str) (hlen : str.length ≤ 255) :
    NameKept a fuel str r s ↔ Fits s str := by
  obtain ⟨t, ht⟩ := h.represents
  constructor
  · rintro ⟨r', s', hrun, hcopied, -⟩
    by_contra hfits
    obtain ⟨hlong, hfits⟩ := not_or.mp hfits
    obtain ⟨hnone, hclear⟩ := not_or.mp hfits
    obtain ⟨u, hstring⟩ := Services.exceptionCreateSemaphore_string (readsMemory a) hstr
    rw [List.take_of_length_le hlen] at hstring
    obtain ⟨i, -, -, hmake⟩ := create_makes (s := HasMemory.setMemory s u) a (not_not.mp hnone)
      (Nat.pos_of_ne_zero hclear)
    have hhandler : (services a).handlerOf fuel (r 2).toNat =
        some (services a).exceptionCreateSemaphore := by
      rw [hcode]
      rfl
    rw [Services.exceptionHandler_of_some hhandler
      (hstring.trans (Services.answer_of_some _ hmake))] at hrun
    cases hrun
    -- of 50 characters, the zero goes behind the name
    have hbound := hcopied (a.block s.made, a.block s.made + (50 : ℕ))
      (List.mem_append_right _ (List.mem_map.mpr ⟨50, List.mem_range.mpr ?_, rfl⟩))
    · simp only [Sem.nameSize] at hbound
      omega
    · simp only [Sem.nameSize] at hlong
      omega
  · intro hfits
    obtain ⟨name, rfl⟩ := exists_cString hstr.nonzero
    obtain ⟨r', s', t', hrun, hnext, hcases⟩ := ht.createCall hcode hstr hlen hfits fuel
    refine ⟨r', s', hrun, hnext.copied, fun hzero u q other hq hother => ?_⟩
    rcases hcases with hfail | ⟨-, hmade, hshort, hmap⟩
    · rw [hzero] at hfail
      cases hfail
    · obtain ⟨called, hcalled⟩ := exists_cString fun hz =>
        hother.nonzero (List.mem_of_mem_take (i := 255) hz)
      obtain ⟨q', s'', hact, -, hfound⟩ := (hnext.setMemory u).actCall (r := q) hq hother hcalled fuel
      have hsmall : name.chars.length < 255 := lt_of_lt_of_le hshort (by decide)
      have heq : called.chars = name.chars ↔ other = name.chars := by
        rw [hcalled]
        exact take_eq_iff hsmall other
      exact ⟨q', s'', hact, acts_iff ht hmade hmap heq hfound⟩

/-- Objects of 64 bytes, one behind the other. -/
def inOrder : Allocator where
  block n := 64 * n
  semaphore n := BitVec.ofNat 32 n
  apart m n h := by omega
  distinct m hm n hn h := by
    simp only [MAX_SEMAPHORE] at hm hn
    exact Word.ofNat_inj (by omega) (by omega) h

theorem create_name_short : NameKept inOrder 0 [109] (callRegisters 18 0 1 0)
    (start (UserMemory.ofString [109]) fun _ => 0) := by
  have hstr := UserMemory.hasString_ofString [109] (by decide) (by decide)
  have hreached := (Reached.start (UserMemory.ofString [109]) fun _ => 0 : Reached inOrder 0 _)
  exact (create_name_iff (r := callRegisters 18 0 1 0) hreached rfl hstr (by decide)).mpr (.inl (by decide))

/-- A name of 50 characters. -/
def fifty : List Byte := List.replicate 50 109

/-- Its zero is copied behind the name. -/
theorem create_name_fails : ¬NameKept inOrder 0 fifty (callRegisters 18 0 1 0)
    (start (UserMemory.ofString fifty) fun _ => 0) := by
  rintro ⟨r', s', hrun, hcopied, -⟩
  have hbehind : ((services inOrder).exceptionHandler 0 .SyscallException
      (callRegisters 18 0 1 0, start (UserMemory.ofString fifty) fun _ => 0)).map
        (fun a => decide ((0, 50) ∈ a.2.2.copied)) = some true := by decide +kernel
  rw [hrun, Option.map_some, Option.some.injEq, decide_eq_true_eq] at hbehind
  exact absurd (hcopied (0, 50) hbehind).2 (by decide)

end Nachos
