import Nachos.Userprog.Devices
import Mathlib.Data.Fintype.Card
import Mathlib.Order.Interval.Finset.Nat

/-!
# Copying between kernel and user space

`User2System` and `System2User` stop behind the first zero byte. Where the page table gives
each page a frame of its own, they touch no other byte of the program.
-/
namespace Nachos

open Bytes (Byte)

namespace UserMemory

variable {u u' u'' : UserMemory} {addr a b : BitVec 32} {writing : Bool} {i n : ℕ}

/-- `n` bytes from `addr` on that can be read, or written. -/
def Buffer (u : UserMemory) (addr : BitVec 32) (n : ℕ) (writing : Bool) : Prop :=
  ∀ i < n, u.Mapped (addr + BitVec.ofNat 32 i) writing

/-- The bytes of the buffer are at different places. -/
def Separate (u : UserMemory) (addr : BitVec 32) (n : ℕ) : Prop :=
  ∀ i < n, ∀ j < n, u.place (addr + BitVec.ofNat 32 i) = u.place (addr + BitVec.ofNat 32 j) → i = j

theorem SameMap.separate (h : SameMap u u') (hs : u.Separate addr n) : u'.Separate addr n := by
  intro i hi j hj hplace
  rw [h.place, h.place] at hplace
  exact hs i hi j hj hplace

theorem Buffer.separate (hb : u.Buffer addr n writing) (hu : u.Injective) (hn : n ≤ 2 ^ 32) :
    u.Separate addr n := by
  intro i hi j hj hplace
  exact Word.add_ofNat_inj (by omega) (by omega) (hu.place (hb i hi).read (hb j hj).read hplace)

/-- A buffer is no larger than the memory. -/
theorem Buffer.le_of_separate (hb : u.Buffer addr n writing) (hs : u.Separate addr n) :
    n ≤ MemorySize := by
  have hlt : ∀ i < n, (u.place (addr + BitVec.ofNat 32 i)).toNat ∈ Finset.range MemorySize := by
    intro i hi
    have h := hb i hi
    have h0 := h.frame
    have h1 := h.frame_lt
    simp only [UserMemory.place, MemorySize, PageSize, NumPhysPages, Finset.mem_range] at *
    omega
  have hinj : Set.InjOn (fun i => (u.place (addr + BitVec.ofNat 32 i)).toNat) (Finset.range n) := by
    intro i hi j hj h
    simp only [Finset.coe_range, Set.mem_Iio] at hi hj
    have h0 := (hb i hi).frame
    have h1 := (hb j hj).frame
    refine hs i hi j hj ?_
    simp only [UserMemory.place, PageSize] at *
    omega
  have := Finset.card_le_card_of_injOn _ (fun i hi => hlt i (Finset.mem_range.mp hi)) hinj
  simpa using this

theorem Buffer.le (hb : u.Buffer addr n writing) (hu : u.Injective) (hn : n ≤ 2 ^ 32) :
    n ≤ MemorySize := hb.le_of_separate (hb.separate hu hn)

/-- The byte that `ReadMem` finds, unless it raises an exception. -/
def char? (u : UserMemory) (addr : BitVec 32) : Option Byte :=
  match u.translated addr 1 false with
  | .ok r => some (u.mainMemory r.1)
  | .error _ => none

theorem Mapped.char? (h : u.Mapped a false) : u.char? a = some (u.byte a) := by
  rw [UserMemory.char?, h.translated]
  rfl

/-- A translation sets bits of one entry. -/
theorem sameMap_translated {r : Int × UserMemory} {size : ℕ}
    (h : u.translated a size writing = .ok r) : Touched u r.2 := by
  unfold translated Nachos.translate at h
  simp only at h
  split_ifs at h <;> simp only [Except.map, Except.ok.injEq, reduceCtorEq] at h
  subst h
  refine ⟨⟨rfl, fun p => ?_⟩, rfl⟩
  by_cases hp : p = a.toNat / PageSize
  · subst hp
    simp
  · simp [hp]

theorem Touched.char? (h : Touched u u') (a : BitVec 32) : u'.char? a = u.char? a := by
  obtain ⟨h₁, h₂, h₃⟩ := h.entry (a.toNat / PageSize)
  unfold UserMemory.char? translated Nachos.translate
  simp only [h.size, h.main, h₁, h₂, h₃]
  split_ifs <;> rfl

theorem readByte_of_some {c : Byte} (h : u.char? a = some c) :
    ∃ u', u.readByte a = .ok (c.signExtend 32, u') ∧ Touched u u' := by
  unfold UserMemory.char? at h
  split at h
  · rename_i r hr
    have ht := sameMap_translated hr
    simp only [Option.some.injEq] at h
    refine ⟨r.2, ?_, ht⟩
    rw [readByte, hr, ← h, ← ht.main]
    rfl
  · cases h

theorem readByte_of_none (h : u.char? a = none) : ∃ e, u.readByte a = .error e := by
  unfold UserMemory.char? at h
  split at h
  · cases h
  · rename_i e he
    exact ⟨e, by rw [readByte, he]; rfl⟩

/-- What `User2System` reads from index `i` on, in up to `n` iterations: up to the first zero,
unless a byte before that cannot be read. -/
def copied (u : UserMemory) (addr : BitVec 32) (i : ℕ) : ℕ → Option (List Byte)
  | 0 => some []
  | n + 1 => do
    let c ← u.char? (addr + BitVec.ofNat 32 i)
    if c = 0 then some [0]
    else do
      let rest ← copied u addr (i + 1) n
      some (c :: rest)

theorem Touched.copied (h : Touched u u') (addr : BitVec 32) (i n : ℕ) :
    u'.copied addr i n = u.copied addr i n := by
  induction n generalizing i with
  | zero => rfl
  | succ n ih => simp only [UserMemory.copied, h.char?, ih]

/-- A buffer that can be read is copied. -/
theorem copied_of_mapped (addr : BitVec 32) (hb : ∀ j, i ≤ j → j < i + n →
      u.Mapped (addr + BitVec.ofNat 32 j) false) :
    u.copied addr i n = some (Bytes.upToZero
      ((List.range' i n).map fun j => u.byte (addr + BitVec.ofNat 32 j))) := by
  induction n generalizing i with
  | zero => rfl
  | succ n ih =>
    have hc := (hb i le_rfl (by omega)).char?
    have ih := ih (i := i + 1) fun j h1 h2 => hb j (by omega) (by omega)
    rw [copied, List.range'_succ, List.map_cons, Bytes.upToZero]
    simp only [hc, ih, bind, Option.bind]
    split_ifs <;> rfl

/-- `bs` has been written to the buffer at `addr`, from index `i` on. -/
structure Stored (u u' : UserMemory) (addr : BitVec 32) (i : ℕ) (bs : List Byte) : Prop
    extends SameMap u u' where
  written : ∀ j < bs.length, u'.mainMemory (u.place (addr + BitVec.ofNat 32 (i + j))) = bs.getD j 0
  rest : ∀ x, (∀ j < bs.length, x ≠ u.place (addr + BitVec.ofNat 32 (i + j))) →
    u'.mainMemory x = u.mainMemory x

theorem Stored.nil (u : UserMemory) (addr : BitVec 32) (i : ℕ) : Stored u u addr i [] :=
  ⟨SameMap.refl u, fun j hj => absurd hj (Nat.not_lt_zero j), fun _ _ => rfl⟩

/-- One byte, and then the others. -/
theorem Stored.cons {c : Byte} {bs : List Byte} (hsame : SameMap u u')
    (hmain : u'.mainMemory =
      Function.update u.mainMemory (u.place (addr + BitVec.ofNat 32 i)) c)
    (hne : ∀ j < bs.length, u.place (addr + BitVec.ofNat 32 i) ≠
      u.place (addr + BitVec.ofNat 32 (i + 1 + j)))
    (h : Stored u' u'' addr (i + 1) bs) : Stored u u'' addr i (c :: bs) := by
  refine ⟨hsame.trans h.toSameMap, fun j hj => ?_, fun x hx => ?_⟩
  · cases j with
    | zero =>
      rw [Nat.add_zero, h.rest, hmain, Function.update_self]
      · rfl
      · intro j hj
        rw [hsame.place]
        exact hne j hj
    | succ j =>
      have := h.written j (by simpa using hj)
      rw [hsame.place] at this
      rw [show i + (j + 1) = i + 1 + j by omega, this]
      rfl
  · rw [h.rest, hmain, Function.update_of_ne]
    · exact hx 0 (by simp)
    · intro j hj
      have := hx (j + 1) (by simpa using hj)
      rwa [hsame.place, show i + 1 + j = i + (j + 1) by omega]

theorem Touched.stored {bs : List Byte} (ht : Touched u u') (h : Stored u' u'' addr i bs) :
    Stored u u'' addr i bs := by
  refine ⟨ht.toSameMap.trans h.toSameMap, fun j hj => ?_, fun x hx => ?_⟩
  · rw [← ht.toSameMap.place]
    exact h.written j hj
  · rw [h.rest, ht.main]
    intro j hj
    rw [ht.toSameMap.place]
    exact hx j hj

theorem Stored.byte_written {bs : List Byte} (h : Stored u u' addr 0 bs) (hi : i < bs.length) :
    u'.byte (addr + BitVec.ofNat 32 i) = bs.getD i 0 := by
  rw [byte, h.toSameMap.place, ← h.written i hi, Nat.zero_add]

/-- A byte that is not written keeps its value. -/
theorem Stored.byte_rest {bs : List Byte} (h : Stored u u' addr 0 bs) (hu : u.Injective)
    (hb : u.Buffer addr n writing) (hle : bs.length ≤ n) (ha : u.Mapped a false)
    (hne : ∀ j < bs.length, a ≠ addr + BitVec.ofNat 32 j) : u'.byte a = u.byte a := by
  rw [byte, byte, h.toSameMap.place, h.rest]
  intro j hj heq
  rw [Nat.zero_add] at heq
  exact hne j hj (hu.place ha (hb j (by omega)).read heq)

/-- What is in a buffer when bytes have been stored up to the first zero: old ones behind it. -/
theorem Stored.byte_upToZero {bs : List Byte} (h : Stored u u' addr 0 (Bytes.upToZero bs))
    (hu : u.Injective) (hb : u.Buffer addr n writing) (hn : n ≤ 2 ^ 32) (hle : bs.length ≤ n)
    (hi : i < bs.length) : u'.byte (addr + BitVec.ofNat 32 i) =
      if ∀ j < i, bs.getD j 0 ≠ 0 then bs.getD i 0 else u.byte (addr + BitVec.ofNat 32 i) := by
  have hcount : i < (Bytes.upToZero bs).length ↔ i < bs.length ∧ ∀ j < i, bs.getD j 0 ≠ 0 :=
    Bytes.lt_length_upToZero
  split
  · rename_i hnz
    have hlt := hcount.mpr ⟨hi, hnz⟩
    rw [h.byte_written hlt, Bytes.getD_upToZero hlt]
  · rename_i hz
    have hlen := Bytes.length_upToZero_le bs
    refine h.byte_rest hu hb (hlen.trans hle) (hb i (by omega)).read fun j hj heq => hz ?_
    have : i = j := Word.add_ofNat_inj (by omega) (by omega) heq
    exact (hcount.mp (this ▸ hj)).2

/-- All of them are there exactly if those behind a zero were there before. -/
theorem Stored.delivers_iff {bs : List Byte} (h : Stored u u' addr 0 (Bytes.upToZero bs))
    (hu : u.Injective) (hb : u.Buffer addr n writing) (hn : n ≤ 2 ^ 32) (hle : bs.length ≤ n) :
    (∀ j < bs.length, u'.byte (addr + BitVec.ofNat 32 j) = bs.getD j 0) ↔
    ∀ i j, i < j → j < bs.length → bs.getD i 0 = 0 →
      bs.getD j 0 = u.byte (addr + BitVec.ofNat 32 j) := by
  constructor
  · intro hall i j hij hj hi
    rw [← hall j hj, h.byte_upToZero hu hb hn hle hj, if_neg fun hnz => hnz i hij hi]
  · intro hcond j hj
    rw [h.byte_upToZero hu hb hn hle hj]
    split
    · rfl
    · rename_i hz
      push Not at hz
      obtain ⟨i, hij, hi⟩ := hz
      exact (hcond i j hij hj hi).symm

end UserMemory

/-- A `char` that was widened to an `int` and back. -/
theorem truncate_signExtend (b : Byte) : (b.signExtend 32).truncate 8 = b := by
  ext i hi
  simp only [BitVec.truncate_eq_setWidth, BitVec.getElem_setWidth, BitVec.getLsbD_signExtend]
  rw [if_pos hi, BitVec.getLsbD_eq_getElem hi]
  simp
  omega

theorem signExtend_eq_zero {b : Byte} : b.signExtend 32 = 0 ↔ b = 0 := by
  constructor
  · intro h
    rw [← truncate_signExtend b, h]
    rfl
  · rintro rfl
    rfl

/-- What `User2System` makes of the bytes of a buffer. -/
def kernelBuf (bs : List Byte) : List Byte :=
  Bytes.upToZero bs ++ List.replicate (bs.length + 1 - (Bytes.upToZero bs).length) 0

theorem length_kernelBuf (bs : List Byte) : (kernelBuf bs).length = bs.length + 1 := by
  have := Bytes.length_upToZero_le bs
  rw [kernelBuf, List.length_append, List.length_replicate]
  omega

theorem getD_kernelBuf (bs : List Byte) (j : ℕ) : (kernelBuf bs).getD j 0 =
    if j < (Bytes.upToZero bs).length then bs.getD j 0 else 0 := by
  rw [kernelBuf]
  split
  · rename_i hj
    rw [List.getD_append _ _ _ _ hj, Bytes.getD_upToZero hj]
  · rename_i hj
    rw [List.getD_append_right _ _ _ _ (by omega)]
    simp only [List.getD_eq_getElem?_getD, List.getElem?_replicate]
    split <;> rfl

/-- It is the same as the buffer as long as nothing but zeros follows a zero. -/
theorem take_kernelBuf_iff {bs : List Byte} {n : ℕ} (hn : n ≤ bs.length) :
    (kernelBuf bs).take n = bs.take n ↔
      ∀ i j, i < j → j < n → bs.getD i 0 = 0 → bs.getD j 0 = 0 := by
  have hget : ∀ (l : List Byte) (j), j < n → (l.take n).getD j 0 = l.getD j 0 := by
    intro l j hj
    simp only [List.getD_eq_getElem?_getD, List.getElem?_take_of_lt hj]
  constructor
  · intro h i j hij hj hi
    rw [← hget bs j hj, ← h, hget _ j hj, getD_kernelBuf, if_neg]
    exact fun hlt => (Bytes.lt_length_upToZero.mp hlt).2 i hij hi
  · intro h
    refine Bytes.ext_getD ?_ fun j hj => ?_
    · rw [List.length_take, List.length_take, length_kernelBuf]
      omega
    · have hj : j < n := by
        rw [List.length_take] at hj
        omega
      rw [hget _ j hj, hget _ j hj, getD_kernelBuf]
      split
      · rfl
      · rename_i hlt
        rw [Bytes.lt_length_upToZero, and_iff_right (by omega)] at hlt
        push Not at hlt
        obtain ⟨i, hij, hi⟩ := hlt
        exact (h i j hij hj hi).symm

/-- A state that has the memory of the running program in it. -/
class HasMemory (S : Type) where
  memory : S → UserMemory
  setMemory : S → UserMemory → S
  memory_setMemory : ∀ s u, memory (setMemory s u) = u
  setMemory_setMemory : ∀ s u u', setMemory (setMemory s u) u' = setMemory s u'
  setMemory_memory : ∀ s, setMemory s (memory s) = s

namespace Services

open Command (onSecond)
open HasMemory
open UserMemory (Touched Stored SameMap)

variable {S : Type} [HasMemory S] {k : Services S} {s : S} {r : Registers} {addr : BitVec 32}
  {i n : ℕ}

/-- The service is `Machine::ReadMem`. An exception ends in `Halt`. -/
def ReadsMemory (k : Services S) : Prop := ∀ addr s, k.readMem addr s =
  match (memory s).readByte addr with
  | .ok (value, u) => some (value, setMemory s u)
  | .error _ => none

theorem ReadsMemory.of_some (hk : k.ReadsMemory) {c : Byte} (hc : (memory s).char? addr = some c) :
    ∃ u, onSecond (k.readMem addr) (r, s) = some (c.signExtend 32, r, setMemory s u) ∧
      Touched (memory s) u := by
  obtain ⟨u, hu, ht⟩ := UserMemory.readByte_of_some hc
  refine ⟨u, Command.onSecond_of_some ?_, ht⟩
  rw [hk, hu]

theorem ReadsMemory.of_none (hk : k.ReadsMemory) (hc : (memory s).char? addr = none) :
    onSecond (k.readMem addr) (r, s) = none := by
  obtain ⟨e, he⟩ := UserMemory.readByte_of_none hc
  refine Command.onSecond_of_none ?_
  rw [hk, he]

/-- The loop of `User2System` comes back with what it could read. -/
theorem copyIn_of_some (hk : k.ReadsMemory) {bs : List Byte}
    (hb : (memory s).copied addr i n = some bs) :
    ∃ u, k.copyIn addr i n (r, s) = some (bs, r, setMemory s u) ∧ Touched (memory s) u := by
  induction n generalizing i s bs with
  | zero =>
    cases hb
    exact ⟨memory s, by rw [setMemory_memory]; rfl, SameMap.refl _, rfl⟩
  | succ n ih =>
    simp only [UserMemory.copied, bind, Option.bind_eq_some_iff] at hb
    obtain ⟨c, hc, hb⟩ := hb
    obtain ⟨u, hread, ht⟩ := hk.of_some (r := r) hc
    rw [copyIn, Command.bind_of_some hread]
    split
    · rename_i hz
      rw [if_pos (signExtend_eq_zero.mp hz)] at hb
      cases hb
      exact ⟨u, rfl, ht⟩
    · rename_i hz
      rw [if_neg (mt signExtend_eq_zero.mpr hz)] at hb
      obtain ⟨rest, hrest, hb⟩ := Option.bind_eq_some_iff.mp hb
      cases hb
      have hrest : (memory (setMemory s u)).copied addr (i + 1) n = some rest := by
        rw [memory_setMemory, ht.copied, hrest]
      obtain ⟨u', hrun, ht'⟩ := ih hrest
      rw [memory_setMemory] at ht'
      rw [setMemory_setMemory] at hrun
      rw [Command.bind_of_some hrun]
      refine ⟨u', ?_, ht.toSameMap.trans ht'.toSameMap, ht'.main.trans ht.main⟩
      rw [truncate_signExtend]
      rfl

/-- It does not come back from a byte that it cannot read. -/
theorem copyIn_of_none (hk : k.ReadsMemory) (hb : (memory s).copied addr i n = none) :
    k.copyIn addr i n (r, s) = none := by
  induction n generalizing i s with
  | zero => cases hb
  | succ n ih =>
    cases hc : (memory s).char? (addr + BitVec.ofNat 32 i) with
    | none => exact Command.bind_of_none (hk.of_none hc)
    | some c =>
      simp only [UserMemory.copied, hc, bind, Option.bind_some] at hb
      obtain ⟨u, hread, ht⟩ := hk.of_some (r := r) hc
      rw [copyIn, Command.bind_of_some hread]
      split_ifs at hb with hz
      rw [if_neg (mt signExtend_eq_zero.mp hz)]
      refine Command.bind_of_none (ih ?_)
      rw [memory_setMemory, ht.copied]
      cases hrest : (memory s).copied addr (i + 1) n with
      | none => rfl
      | some rest => simp [hrest] at hb

/-- `User2System` on a buffer: what it read, and zeros behind that. -/
theorem user2System_of_some (hk : k.ReadsMemory) {limit : BitVec 32} {bs : List Byte}
    (hl : 0 ≤ (limit + 1).toInt)
    (hb : (memory s).copied addr 0 limit.toInt.toNat = some bs) :
    ∃ u, k.user2System addr limit (r, s) =
        some (bs ++ List.replicate ((limit + 1).toNat - bs.length) 0, r, setMemory s u) ∧
      Touched (memory s) u := by
  obtain ⟨u, hrun, ht⟩ := copyIn_of_some hk (r := r) hb
  refine ⟨u, ?_, ht⟩
  rw [user2System, if_neg (by omega), Command.bind_of_some hrun]
  rfl

/-- `User2System` on a buffer that can be read. -/
theorem user2System_spec (hk : k.ReadsMemory) {limit : BitVec 32}
    (hb : (memory s).Buffer addr limit.toNat false) (hl : limit.toNat ≤ MemorySize) :
    ∃ u', k.user2System addr limit (r, s) =
        some (kernelBuf ((memory s).bytes addr limit.toNat), r, setMemory s u') ∧
      Touched (memory s) u' := by
  simp only [MemorySize, NumPhysPages, PageSize] at hl
  have hnat := Word.toNat_succ (x := limit) (by omega)
  have hint : limit.toInt.toNat = limit.toNat := by
    rw [Word.toInt_of_lt (by omega), Int.toNat_natCast]
  have hpos : 0 ≤ (limit + 1).toInt := by
    rw [Word.toInt_of_lt (by omega)]
    omega
  have hcopied := UserMemory.copied_of_mapped (u := memory s) addr (i := 0)
    (n := limit.toNat) fun j _ h => hb j (by omega)
  rw [← hint] at hcopied
  obtain ⟨u', hrun, ht⟩ := user2System_of_some hk (r := r) hpos hcopied
  refine ⟨u', ?_, ht⟩
  rw [hrun, hnat, hint, ← List.range_eq_range']
  simp [kernelBuf, UserMemory.bytes]

/-- The service is `Machine::WriteMem`. An exception ends in `Halt`. -/
def WritesMemory (k : Services S) : Prop := ∀ addr value s, k.writeMem addr value s =
  match (memory s).writeByte addr value with
  | .ok u => some ((), setMemory s u)
  | .error _ => none

theorem WritesMemory.of_mapped (hk : k.WritesMemory) (h : (memory s).Mapped addr true)
    (value : BitVec 32) : onSecond (k.writeMem addr value) (r, s) =
      some ((), r, setMemory s { (memory s).touch addr true with
        mainMemory := Function.update (memory s).mainMemory ((memory s).place addr)
          (value.truncate 8) }) := by
  refine Command.onSecond_of_some ?_
  rw [hk, h.writeByte]

/-- The loop of `System2User` writes up to the first zero. -/
theorem copyOut_spec (hk : k.WritesMemory) (buffer : List Byte)
    (hs : (memory s).Separate addr (i + n))
    (hb : ∀ j, i ≤ j → j < i + n → (memory s).Mapped (addr + BitVec.ofNat 32 j) true) :
    ∃ u', k.copyOut addr buffer i n (r, s) = some (BitVec.ofNat 32 (i +
        (Bytes.upToZero ((List.range' i n).map fun j => buffer.getD j 0)).length), r,
        setMemory s u') ∧
      Stored (memory s) u' addr i
        (Bytes.upToZero ((List.range' i n).map fun j => buffer.getD j 0)) := by
  induction n generalizing i s with
  | zero =>
    refine ⟨memory s, by rw [setMemory_memory]; rfl, SameMap.refl _, ?_, fun _ _ => rfl⟩
    simp [Bytes.upToZero]
  | succ n ih =>
    have hmap := hb i le_rfl (by omega)
    have hwrite := hk.of_mapped (r := r) hmap ((buffer.getD i 0).signExtend 32)
    have hsame := UserMemory.sameMap_touch (memory s) (addr + BitVec.ofNat 32 i) true
    rw [truncate_signExtend] at hwrite
    rw [copyOut, Command.bind_of_some hwrite, List.range'_succ, List.map_cons, Bytes.upToZero]
    have hsame' : SameMap (memory s) { (memory s).touch (addr + BitVec.ofNat 32 i) true with
        mainMemory := Function.update (memory s).mainMemory
          ((memory s).place (addr + BitVec.ofNat 32 i)) (buffer.getD i 0) } :=
      ⟨hsame.size, hsame.entry⟩
    split
    · rename_i hz
      have hz := signExtend_eq_zero.mp hz
      rw [if_pos hz]
      refine ⟨_, rfl, Stored.cons hsame' ?_ (fun j hj => absurd hj (Nat.not_lt_zero j))
        (Stored.nil _ _ _)⟩
      rw [hz]
    · rename_i hz
      rw [if_neg (mt signExtend_eq_zero.mpr hz)]
      have hs' : (memory s).Separate addr (i + 1 + n) := by
        rw [Nat.add_right_comm]
        exact hs
      obtain ⟨u', hrun, hstored⟩ := ih (i := i + 1)
        (s := setMemory s { (memory s).touch (addr + BitVec.ofNat 32 i) true with
          mainMemory := Function.update (memory s).mainMemory
            ((memory s).place (addr + BitVec.ofNat 32 i)) (buffer.getD i 0) })
        (by rw [memory_setMemory]; exact hsame'.separate hs') fun j h1 h2 => by
          rw [memory_setMemory]
          exact hsame'.mapped (hb j (by omega) (by omega))
      rw [memory_setMemory] at hstored
      rw [setMemory_setMemory, Nat.add_right_comm] at hrun
      refine ⟨u', hrun, Stored.cons hsame' rfl (fun j hj heq => ?_) hstored⟩
      have hj := (Bytes.lt_length_upToZero.mp hj).1
      rw [List.length_map, List.length_range'] at hj
      have := hs i (by omega) (i + 1 + j) (by omega) heq
      omega

/-- `System2User` to a buffer with bytes at different places: what it writes, and how much. -/
theorem system2User_of_separate (hk : k.WritesMemory) {len : BitVec 32}
    (hs : (memory s).Separate addr len.toNat) (hb : (memory s).Buffer addr len.toNat true)
    (buffer : List Byte) :
    ∃ u', k.system2User addr len buffer (r, s) = some (BitVec.ofNat 32
        (Bytes.upToZero ((List.range len.toNat).map fun j => buffer.getD j 0)).length, r,
        setMemory s u') ∧
      Stored (memory s) u' addr 0
        (Bytes.upToZero ((List.range len.toNat).map fun j => buffer.getD j 0)) := by
  have hl := hb.le_of_separate hs
  simp only [MemorySize, NumPhysPages, PageSize] at hl
  have hspec := copyOut_spec hk buffer (r := r) (i := 0) (by rwa [Nat.zero_add])
    fun j _ h => hb j (by omega)
  rw [Nat.zero_add] at hspec
  rw [system2User, if_neg (by rw [Word.toInt_of_lt (by omega)]; omega), List.range_eq_range']
  exact hspec

/-- `System2User` to a buffer. -/
theorem system2User_spec (hk : k.WritesMemory) (hu : (memory s).Injective) {len : BitVec 32}
    (hb : (memory s).Buffer addr len.toNat true) (buffer : List Byte) :
    ∃ u' m, k.system2User addr len buffer (r, s) = some (m, r, setMemory s u') ∧
      Stored (memory s) u' addr 0
        (Bytes.upToZero ((List.range len.toNat).map fun j => buffer.getD j 0)) := by
  obtain ⟨u', hrun, hstored⟩ :=
    system2User_of_separate hk (r := r) (hb.separate hu len.isLt.le) hb buffer
  exact ⟨u', _, hrun, hstored⟩

end Services

namespace Devices

instance : HasMemory Devices where
  memory s := s.memory
  setMemory s u := { s with memory := u }
  memory_setMemory _ _ := rfl
  setMemory_setMemory _ _ _ := rfl
  setMemory_memory _ := rfl

variable {n : ℕ} (old : List Byte)

theorem readsMemory : (services old).ReadsMemory := fun _ _ => rfl

theorem writesMemory : (services old).WritesMemory := fun _ _ _ => rfl

theorem sample_injective (mainMemory : Bytes.Memory) (type : BitVec 32) (file : HostFile) :
    (sample mainMemory type file).memory.Injective := by
  intro p _ q _ _ _ h
  exact Int.ofNat_inj.mp h

theorem sample_buffer (mainMemory : Bytes.Memory) (type : BitVec 32) (file : HostFile)
    (hn : n ≤ 2048) (writing : Bool) :
    (sample mainMemory type file).memory.Buffer 0 n writing := by
  intro i hi
  have hnat : (0 + BitVec.ofNat 32 i).toNat = i := by
    rw [show (0 : BitVec 32) = 0#32 from rfl, BitVec.zero_add, Word.toNat_ofNat (by omega)]
  have hsize : (sample mainMemory type file).memory.pageTableSize.toNat = 4 := rfl
  refine ⟨?_, rfl, fun _ => rfl, ?_, ?_⟩
  · rw [hsize, hnat, PageSize]
    omega
  · exact Int.natCast_nonneg _
  · simp only [sample, hnat, PageSize, NumPhysPages]
    omega

end Devices

end Nachos
