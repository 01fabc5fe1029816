import Nachos.Userprog.BitMap
import Mathlib.Data.Finmap

/-!
# The table of named semaphores

`class STable` of `stable.cc`: a bit map of the slots in use beside an array of pointers. It
is a map from names to semaphores with room for ten entries.
-/
namespace Nachos

/-- A C string, without the zero byte that ends it. -/
structure CString where
  chars : List (BitVec 8)
  noNul : 0 ∉ chars
  deriving DecidableEq

/-- What `new Semaphore` makes. The number `id` tells one object from the others. -/
structure SemObject where
  id : ℕ
  initialValue : BitVec 32
  deriving DecidableEq

/-- `class Sem`. -/
structure Sem where
  name : CString
  sem : SemObject
  deriving DecidableEq

namespace Sem

/-- `char name[50]`. -/
def nameSize : ℕ := 50

/-- The constructor. The string and its zero byte have to fit into `name`: `strcpy` does not
look, and what happens behind the array is not modelled. -/
def new (name : CString) (sem : SemObject) : Option Sem :=
  if name.chars.length < nameSize then some ⟨name, sem⟩ else none

end Sem

def MAX_SEMAPHORE : ℕ := 10

structure STable where
  bm : BitMap
  semTab : ℕ → Option Sem

/-- The map the table is to be. -/
abbrev SemMap := Finmap fun _ : CString => SemObject

namespace STable

/-- `STable::STable`. -/
def empty : STable := ⟨.ofSize MAX_SEMAPHORE, fun _ => none⟩

/-- The loop that `Create`, `Wait` and `Signal` have in common, over the slots `is`: the entry
under `name`, if any. `none` where it follows a null pointer. -/
def lookup (t : STable) (name : CString) : List ℕ → Option (Option Sem)
  | [] => some none
  | i :: is =>
    if t.bm.test i then
      match t.semTab i with
      | none => none
      | some s => if name = s.name then some (some s) else t.lookup name is
    else t.lookup name is

/-- The entry `Wait(name)` and `Signal(name)` act on. -/
def find (t : STable) (name : CString) : Option (Option SemObject) :=
  (t.lookup name (List.range MAX_SEMAPHORE)).map (Option.map Sem.sem)

/-- `STable::Create`, whose semaphore will be the object `sem`. -/
def create (t : STable) (name : CString) (sem : SemObject) : Option (Int × STable) :=
  match t.lookup name (List.range MAX_SEMAPHORE) with
  | none => none
  | some (some _) => some (-1, t)
  | some none =>
    let r := t.bm.find
    if r.1 < 0 then some (-1, { t with bm := r.2 })
    else
      (Sem.new name sem).map fun s =>
        (0, ⟨r.2, Function.update t.semTab r.1.toNat (some s)⟩)

/-- The map in the table. -/
def toMap (t : STable) : SemMap :=
  (((List.range MAX_SEMAPHORE).filterMap t.semTab).map fun s => ⟨s.name, s.sem⟩).toFinmap

/-- The bit map and the array agree, and the names are pairwise different. -/
structure WellFormed (t : STable) : Prop where
  numBits : t.bm.numBits = MAX_SEMAPHORE
  marked : ∀ i < MAX_SEMAPHORE, t.bm.test i = true ↔ t.semTab i ≠ none
  distinct : ∀ i < MAX_SEMAPHORE, ∀ j < MAX_SEMAPHORE, ∀ a b, t.semTab i = some a →
    t.semTab j = some b → a.name = b.name → i = j

end STable

namespace SemMap

def find (m : SemMap) (name : CString) : Option (Option SemObject) := some (m.lookup name)

/-- `Create` on the map: the name is new and there is room, or nothing changes. -/
def create (m : SemMap) (name : CString) (sem : SemObject) : Option (Int × SemMap) :=
  if name ∉ m ∧ m.keys.card < MAX_SEMAPHORE then
    if name.chars.length < Sem.nameSize then some (0, m.insert name sem) else none
  else some (-1, m)

end SemMap

namespace STable

variable {t u : STable} {name : CString} {sem : SemObject} {s : Sem}

theorem wellFormed_empty : WellFormed empty where
  numBits := rfl
  marked i _ := by simp [empty]
  distinct i _ j _ a b ha := by cases ha

theorem nodupKeys_entries (h : WellFormed t) :
    List.NodupKeys (((List.range MAX_SEMAPHORE).filterMap t.semTab).map fun s =>
      (⟨s.name, s.sem⟩ : (_ : CString) × SemObject)) := by
  rw [List.nodupKeys_iff_pairwise, List.pairwise_map, List.pairwise_filterMap]
  refine List.nodup_range.pairwise_of_forall_ne ?_
  intro i hi j hj hne a ha b hb hab
  exact hne (h.distinct i (List.mem_range.mp hi) j (List.mem_range.mp hj) a b ha hb hab)

theorem lookup_toMap (h : WellFormed t) :
    t.toMap.lookup name = some sem ↔ ∃ i < MAX_SEMAPHORE, t.semTab i = some ⟨name, sem⟩ := by
  rw [toMap, Finmap.dlookup_list_toFinmap, ← Option.mem_def,
    List.mem_dlookup_iff (nodupKeys_entries h)]
  simp only [List.mem_map, List.mem_filterMap, List.mem_range]
  constructor
  · rintro ⟨⟨n, o⟩, ⟨i, hi, hs⟩, he⟩
    cases he
    exact ⟨i, hi, hs⟩
  · rintro ⟨i, hi, hs⟩
    exact ⟨⟨name, sem⟩, ⟨i, hi, hs⟩, rfl⟩

theorem mem_toMap (h : WellFormed t) :
    name ∈ t.toMap ↔ ∃ i < MAX_SEMAPHORE, ∃ s, t.semTab i = some s ∧ s.name = name := by
  rw [Finmap.mem_iff]
  constructor
  · rintro ⟨o, ho⟩
    obtain ⟨i, hi, hs⟩ := (lookup_toMap h).mp ho
    exact ⟨i, hi, _, hs, rfl⟩
  · rintro ⟨i, hi, s, hs, rfl⟩
    exact ⟨s.sem, (lookup_toMap h).mpr ⟨i, hi, hs⟩⟩

/-- There are as many entries as marked bits. -/
theorem card_keys_toMap (h : WellFormed t) : t.toMap.keys.card = t.bm.marked.card := by
  have himage : t.toMap.keys.image some = t.bm.marked.image fun i => (t.semTab i).map Sem.name := by
    ext o
    simp only [Finset.mem_image, Finmap.mem_keys, mem_toMap h, BitMap.mem_marked, h.numBits]
    constructor
    · rintro ⟨name, ⟨i, hi, s, hs, rfl⟩, rfl⟩
      refine ⟨i, ⟨hi, (h.marked i hi).mpr ?_⟩, ?_⟩
      · rw [hs]
        exact Option.some_ne_none s
      · rw [hs]
        rfl
    · rintro ⟨i, ⟨hi, hm⟩, rfl⟩
      obtain ⟨s, hs⟩ := Option.ne_none_iff_exists'.mp ((h.marked i hi).mp hm)
      rw [hs]
      exact ⟨s.name, ⟨i, hi, s, hs, rfl⟩, rfl⟩
  rw [← Finset.card_image_of_injective _ (Option.some_injective _), himage]
  apply Finset.card_image_of_injOn
  intro i hi j hj hij
  simp only [Finset.mem_coe, BitMap.mem_marked, h.numBits] at hi hj
  obtain ⟨a, ha⟩ := Option.ne_none_iff_exists'.mp ((h.marked i hi.1).mp hi.2)
  obtain ⟨b, hb⟩ := Option.ne_none_iff_exists'.mp ((h.marked j hj.1).mp hj.2)
  simp only [ha, hb, Option.map_some, Option.some.injEq] at hij
  exact h.distinct i hi.1 j hj.1 a b ha hb hij

/-- The loop finds the first entry with the name, and follows no null pointer. -/
theorem lookup_eq (h : WellFormed t) {is : List ℕ} (his : ∀ i ∈ is, i < MAX_SEMAPHORE) :
    t.lookup name is = some ((is.filterMap t.semTab).find? fun s => name = s.name) := by
  induction is with
  | nil => rfl
  | cons i is ih =>
    have hi := his i List.mem_cons_self
    have ih := ih fun j hj => his j (List.mem_cons_of_mem i hj)
    unfold lookup
    cases hs : t.semTab i with
    | none =>
      have hm : t.bm.test i ≠ true := fun hm => (h.marked i hi).mp hm hs
      rw [if_neg hm, ih, List.filterMap_cons_none hs]
    | some s =>
      have hm : t.bm.test i = true := (h.marked i hi).mpr (by simp [hs])
      rw [if_pos hm, List.filterMap_cons_some hs]
      by_cases hn : name = s.name
      · simp [hn]
      · simp only [if_neg hn, ih]
        rw [List.find?_cons_of_neg (by simpa using hn)]

/-- What the loop answers, in terms of the map. -/
theorem find_eq (h : WellFormed t) : t.find name = SemMap.find t.toMap name := by
  unfold find SemMap.find
  rw [lookup_eq h fun i hi => List.mem_range.mp hi, Option.map_some]
  congr 1
  cases hf : ((List.range MAX_SEMAPHORE).filterMap t.semTab).find? fun s => name = s.name with
  | none =>
    have hnot : name ∉ t.toMap := by
      rw [mem_toMap h]
      rintro ⟨i, hi, s, hs, hn⟩
      have := List.find?_eq_none.mp hf s
        (List.mem_filterMap.mpr ⟨i, List.mem_range.mpr hi, hs⟩)
      exact this (by simpa using hn.symm)
    exact (Finmap.lookup_eq_none.mpr hnot).symm
  | some s =>
    obtain ⟨i, hi, hs⟩ := List.mem_filterMap.mp (List.mem_of_find?_eq_some hf)
    have hn : name = s.name := by simpa using List.find?_some hf
    rw [hn]
    exact ((lookup_toMap h).mpr ⟨i, List.mem_range.mp hi, hs⟩).symm

/-- The table with a new entry in slot `i`. -/
def put (t : STable) (i : ℕ) (s : Sem) : STable :=
  ⟨t.bm.mark i, Function.update t.semTab i (some s)⟩

theorem put_eq_some {i j : ℕ} {a : Sem} : (t.put i s).semTab j = some a ↔
    j = i ∧ a = s ∨ j ≠ i ∧ t.semTab j = some a := by
  by_cases hj : j = i
  · simp [put, hj, eq_comm]
  · simp [put, hj]

/-- A new entry goes into a slot that was free. -/
theorem WellFormed.put (h : WellFormed t) {i : ℕ} (hi : i < MAX_SEMAPHORE)
    (hfree : t.bm.test i = false) (hnew : s.name ∉ t.toMap) :
    WellFormed (t.put i s) ∧ (t.put i s).toMap = t.toMap.insert s.name s.sem := by
  have hnot : ∀ j < MAX_SEMAPHORE, ∀ b, t.semTab j = some b → b.name ≠ s.name := by
    intro j hj b hb hn
    exact hnew ((mem_toMap h).mpr ⟨j, hj, b, hb, hn⟩)
  have hnone : t.semTab i = none := by
    by_contra hs
    rw [(h.marked i hi).mpr hs] at hfree
    cases hfree
  have hwf : WellFormed (t.put i s) := by
    refine ⟨h.numBits, fun j hj => ?_, fun j hj k hk a b ha hb hn => ?_⟩
    · by_cases hji : j = i
      · simp [STable.put, BitMap.test_mark, hji]
      · simp [STable.put, BitMap.test_mark, hji, h.marked j hj]
    · rcases put_eq_some.mp ha with ⟨hji, has⟩ | ⟨-, ha'⟩
      · rcases put_eq_some.mp hb with ⟨hki, -⟩ | ⟨-, hb'⟩
        · rw [hji, hki]
        · rw [has] at hn
          exact absurd hn.symm (hnot k hk b hb')
      · rcases put_eq_some.mp hb with ⟨-, hbs⟩ | ⟨-, hb'⟩
        · rw [hbs] at hn
          exact absurd hn (hnot j hj a ha')
        · exact h.distinct j hj k hk a b ha' hb' hn
  refine ⟨hwf, Finmap.ext_lookup fun n => Option.ext fun o => ?_⟩
  rw [lookup_toMap hwf]
  by_cases hn : n = s.name
  · subst hn
    rw [Finmap.lookup_insert]
    constructor
    · rintro ⟨j, hj, hs⟩
      rcases put_eq_some.mp hs with ⟨-, he⟩ | ⟨-, hs'⟩
      · rw [← he]
      · exact absurd rfl (hnot j hj ⟨s.name, o⟩ hs')
    · rintro ⟨⟩
      exact ⟨i, hi, put_eq_some.mpr (.inl ⟨rfl, rfl⟩)⟩
  · rw [Finmap.lookup_insert_of_ne _ hn, lookup_toMap h]
    constructor
    · rintro ⟨j, hj, hs⟩
      rcases put_eq_some.mp hs with ⟨-, he⟩ | ⟨-, hs⟩
      · rw [← he] at hn
        exact absurd rfl hn
      · exact ⟨j, hj, hs⟩
    · rintro ⟨j, hj, hs⟩
      refine ⟨j, hj, put_eq_some.mpr (.inr ⟨?_, hs⟩)⟩
      rintro rfl
      rw [hnone] at hs
      cases hs

/-- `Create` is `Create` on the map, keeps the table well formed, and touches nothing of it when
it fails. -/
theorem create_spec (h : WellFormed t) (name : CString) (sem : SemObject) :
    (t.create name sem).map (Prod.map id toMap) = SemMap.create t.toMap name sem ∧
      ∀ r u, t.create name sem = some (r, u) → WellFormed u ∧ (r = -1 → u = t) := by
  have hfind : t.find name = SemMap.find t.toMap name := find_eq h
  unfold find SemMap.find at hfind
  have hcard := BitMap.card_marked_add_numClear t.bm
  rw [← card_keys_toMap h, h.numBits] at hcard
  unfold create SemMap.create
  cases hl : t.lookup name (List.range MAX_SEMAPHORE) with
  | none =>
    rw [hl] at hfind
    cases hfind
  | some o =>
    rw [hl, Option.map_some] at hfind
    have hfind := Option.some.inj hfind
    cases o with
    | some s =>
      have hmem : name ∈ t.toMap := Finmap.mem_iff.mpr ⟨s.sem, hfind.symm⟩
      have hno : ¬(name ∉ t.toMap ∧ t.toMap.keys.card < MAX_SEMAPHORE) := fun hn => hn.1 hmem
      rw [if_neg hno]
      refine ⟨rfl, ?_⟩
      rintro r u ⟨⟩
      exact ⟨h, fun _ => rfl⟩
    | none =>
      have hnew : name ∉ t.toMap := Finmap.lookup_eq_none.mp hfind.symm
      simp only
      by_cases hclear : 0 < t.bm.numClear
      · obtain ⟨i, hi, hfree, -, hf⟩ := BitMap.find_spec hclear
        rw [h.numBits] at hi
        have hnonneg : ¬t.bm.find.1 < 0 := by
          rw [hf]
          exact not_lt.mpr (Int.natCast_nonneg i)
        have hroom : t.toMap.keys.card < MAX_SEMAPHORE := by omega
        rw [if_neg hnonneg, if_pos ⟨hnew, hroom⟩, hf]
        unfold Sem.new
        split
        · obtain ⟨hwf, hmap⟩ := WellFormed.put (s := ⟨name, sem⟩) h hi hfree hnew
          refine ⟨?_, ?_⟩
          · exact congrArg (fun m => some ((0 : Int), m)) hmap
          · rintro r u ⟨⟩
            exact ⟨hwf, fun hr => by cases hr⟩
        · exact ⟨rfl, fun r u hr => by cases hr⟩
      · have hfull : t.bm.find = (-1, t.bm) := BitMap.find_of_full (Nat.eq_zero_of_not_pos hclear)
        have hneg : t.bm.find.1 < 0 := by
          rw [hfull]
          exact Int.negSucc_lt_zero 0
        have hno : ¬(name ∉ t.toMap ∧ t.toMap.keys.card < MAX_SEMAPHORE) := by
          rintro ⟨-, hroom⟩
          omega
        rw [if_pos hneg, if_neg hno, hfull]
        refine ⟨rfl, ?_⟩
        rintro r u ⟨⟩
        exact ⟨h, fun _ => rfl⟩

end STable

end Nachos
