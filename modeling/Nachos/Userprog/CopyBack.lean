import Nachos.Machine.FlatMemory
import Nachos.Userprog.UserCopy

/-!
# There and back

What `System2User` has written `User2System` reads again, on pages in any frames. Pages that can
be written have frames of their own; one that can only be read may share theirs, and shows what
was written there.
-/
namespace Nachos

open Bytes (Byte)
open Services (cString)
open UserMemory (Elsewhere InjectiveOnWritable Stored)
open Mips.Machine (shared shared_injectiveOnWritable shared_mapped)

variable {addr len : BitVec 32} {buffer : List Byte} {n j : ℕ}

/-- The bytes of a string and the zero behind it, or as many of them as there are to be. -/
def copyCount (buffer : List Byte) (n : ℕ) : ℕ := min n ((cString buffer).length + 1)

theorem le_length_cString_iff : j ≤ (cString buffer).length ↔ ∀ i < j, buffer.getD i 0 ≠ 0 := by
  induction buffer generalizing j with
  | nil =>
    cases j with
    | zero => simp
    | succ j => exact iff_of_false (by simp [cString]) fun h => h 0 (Nat.zero_lt_succ j) rfl
  | cons b buffer ih =>
    cases j with
    | zero => simp
    | succ j =>
      by_cases hb : b = 0
      · refine iff_of_false (by simp [cString, hb]) fun h => h 0 (Nat.zero_lt_succ j) hb
      · have hlength : (cString (b :: buffer)).length = (cString buffer).length + 1 := by
          rw [cString, List.takeWhile_cons_of_pos (by simpa using hb)]
          rfl
        rw [hlength, Nat.succ_le_succ_iff, ih]
        constructor
        · intro h i hi
          cases i with
          | zero => exact hb
          | succ i => exact h i (by omega)
        · intro h i hi
          exact h (i + 1) (by omega)

/-- The first `n` bytes behind a pointer. -/
def leading (buffer : List Byte) (n : ℕ) : List Byte := (List.range n).map fun j => buffer.getD j 0

theorem getD_leading (hj : j < n) : (leading buffer n).getD j 0 = buffer.getD j 0 := by
  simp [leading, hj]

theorem length_leading (buffer : List Byte) (n : ℕ) : (leading buffer n).length = n := by
  rw [leading, List.length_map, List.length_range]

theorem length_upToZero_leading (buffer : List Byte) (n : ℕ) :
    (Bytes.upToZero (leading buffer n)).length = copyCount buffer n := by
  refine eq_of_forall_lt_iff fun j => ?_
  rw [Bytes.lt_length_upToZero, length_leading, copyCount, lt_min_iff, Nat.lt_succ_iff,
    le_length_cString_iff]
  refine and_congr_right fun hj => forall₂_congr fun i hi => ?_
  rw [getD_leading (hi.trans hj)]

theorem UserMemory.separate_of_writable {u : UserMemory} (hu : u.InjectiveOnWritable)
    (hb : u.Buffer addr n true) (hn : n ≤ 2 ^ 32) : u.Separate addr n := by
  intro i hi j hj hplace
  exact Word.add_ofNat_inj (by omega) (by omega)
    (hu.eq_of_place (hb j hj) (hb i hi) hplace)

theorem UserMemory.Stored.elsewhere {u u' : UserMemory} {bs : List Byte} {x : BitVec 32}
    (h : Stored u u' addr 0 bs) (hu : u.InjectiveOnWritable) (hb : u.Buffer addr n true)
    (hle : bs.length ≤ n) (hx : u.Elsewhere addr bs.length x) : u'.byte x = u.byte x := by
  rw [byte, byte, h.toSameMap.place]
  refine h.rest _ fun j hj hplace => ?_
  rw [Nat.zero_add] at hplace
  exact hx.place_ne hu (fun i hi => hb i (hi.trans_le hle)) hj hplace

variable {s : Devices} {r : Registers}

/-- `System2User` writes the bytes of the kernel's buffer up to the first zero, as many as fit,
returns how many these are and changes no others; `User2System` gives them back, with zeros behind
them. -/
theorem user2System_system2User (old : List Byte) (hu : s.memory.InjectiveOnWritable)
    (hb : s.memory.Buffer addr len.toNat true) (buffer : List Byte) :
    ∃ u u' copy, (Devices.services old).system2User addr len buffer (r, s) =
        some (BitVec.ofNat 32 (copyCount buffer len.toNat), r, { s with memory := u }) ∧
      (∀ i < copyCount buffer len.toNat,
        u.byte (addr + BitVec.ofNat 32 i) = buffer.getD i 0) ∧
      (∀ x, Elsewhere s.memory addr (copyCount buffer len.toNat) x →
        u.byte x = s.memory.byte x) ∧
      (Devices.services old).user2System addr len (r, { s with memory := u }) =
        some (copy, r, { s with memory := u' }) ∧
      copy.length = len.toNat + 1 ∧
      (∀ i < len.toNat, copy.getD i 0 =
        if i < copyCount buffer len.toNat then buffer.getD i 0 else 0) ∧
      copy.getD len.toNat 0 = 0 := by
  have hseparate := UserMemory.separate_of_writable hu hb len.isLt.le
  have hcount := length_upToZero_leading buffer len.toNat
  have hle : copyCount buffer len.toNat ≤ len.toNat := Nat.min_le_left _ _
  obtain ⟨u, hout, hstored⟩ := Services.system2User_of_separate (Devices.writesMemory old) (r := r)
    (s := s) hseparate hb buffer
  change Stored s.memory u addr 0 (Bytes.upToZero (leading buffer len.toNat)) at hstored
  have hbytes : ∀ i < copyCount buffer len.toNat,
      u.byte (addr + BitVec.ofNat 32 i) = buffer.getD i 0 := by
    intro i hi
    have hi' : i < (Bytes.upToZero (leading buffer len.toNat)).length := hcount.symm ▸ hi
    rw [hstored.byte_written hi', Bytes.getD_upToZero hi', getD_leading (hi.trans_le hle)]
  have hread : u.Buffer addr len.toNat false := fun i hi =>
    (hstored.toSameMap.mapped (hb i hi)).read
  obtain ⟨u', hin, -⟩ := Services.user2System_spec (Devices.readsMemory old) (r := r)
    (s := { s with memory := u }) hread (hb.le_of_separate hseparate)
  -- behind the first zero the memory may hold anything
  have hlength : (u.bytes addr len.toNat).length = len.toNat := by simp [UserMemory.bytes]
  have hsame : Bytes.upToZero (u.bytes addr len.toNat) =
      Bytes.upToZero (leading buffer len.toNat) := by
    refine Bytes.upToZero_congr (hlength.trans (length_leading _ _).symm) fun i hi => ?_
    rw [hcount] at hi
    have hlt := hi.trans_le hle
    rw [getD_leading hlt, ← hbytes i hi]
    simp [UserMemory.bytes, hlt]
  have hback : kernelBuf (u.bytes addr len.toNat) = kernelBuf (leading buffer len.toNat) := by
    rw [kernelBuf, kernelBuf, hsame, hlength, length_leading]
  refine ⟨u, u', kernelBuf (leading buffer len.toNat), ?_, hbytes, ?_, ?_, ?_, ?_, ?_⟩
  · rw [hout]
    exact congrArg (fun m => some (BitVec.ofNat 32 m, r, { s with memory := u })) hcount
  · intro x hx
    exact hstored.elsewhere hu hb (hcount.trans_le hle) (hcount.symm ▸ hx)
  · rw [← hback]
    exact hin
  · rw [length_kernelBuf, length_leading]
  · intro i hi
    rw [getD_kernelBuf, hcount, getD_leading hi]
  · rw [getD_kernelBuf, hcount, if_neg (not_lt.mpr hle)]

/-- Three letters and a zero, on two pages in frames that are in the opposite order. -/
theorem user2System_system2User_twoPages :
    let s := { Devices.sample (fun _ => 1) 0 ⟨[], HostFile.small_nil⟩ with
      memory := Mips.Machine.twoPages }
    ∃ u u' copy, (Devices.services []).system2User 510 6 [104, 105, 106, 0, 107] (fun _ => 0, s) =
        some (4, fun _ => 0, { s with memory := u }) ∧
      u.byte 511 = 105 ∧ u.byte 512 = 106 ∧ u.byte 514 = s.memory.byte 514 ∧
      (Devices.services []).user2System 510 6 (fun _ => 0, { s with memory := u }) =
        some (copy, fun _ => 0, { s with memory := u' }) ∧
      copy.getD 2 0 = 106 ∧ copy.getD 4 0 = 0 := by
  intro s
  have hmapped : ∀ i < 6, s.memory.Mapped (510 + BitVec.ofNat 32 i) true := by
    intro i hi
    have hnat : ((510 : BitVec 32) + BitVec.ofNat 32 i).toNat = 510 + i := by
      rw [BitVec.toNat_add, Word.toNat_ofNat (by omega)]
      exact Nat.mod_eq_of_lt (by omega : 510 + i < 2 ^ 32)
    refine Mips.Machine.twoPages_mapped ?_
    rw [hnat, PageSize]
    omega
  have hbuffer : s.memory.Buffer 510 (6 : BitVec 32).toNat true := hmapped
  obtain ⟨u, u', copy, hout, hbytes, hrest, hin, -, hcopy, -⟩ :=
    user2System_system2User (s := s) (r := fun _ => 0) [] Mips.Machine.twoPages_injectiveOnWritable
      hbuffer [104, 105, 106, 0, 107]
  have hother : Elsewhere s.memory 510 4 514 := by
    refine .inl ⟨hmapped 4 (by decide), ?_⟩
    decide
  exact ⟨u, u', copy, hout, hbytes 1 (by decide), hbytes 2 (by decide), hrest 514 hother, hin,
    hcopy 2 (by decide), hcopy 4 (by decide)⟩

/-- A byte is written on the first page, and is on the second one too. -/
theorem system2User_shared :
    let s := { Devices.sample (fun _ => 0) 0 ⟨[], HostFile.small_nil⟩ with memory := shared }
    s.memory.InjectiveOnWritable ∧ s.memory.Buffer 0 1 true ∧
    (s.memory.Mapped 512 false ∧ ∀ i < 1, (512 : BitVec 32) ≠ 0 + BitVec.ofNat 32 i) ∧
    ∃ u, (Devices.services []).system2User 0 1 [65] (fun _ => 0, s) =
        some (1, fun _ => 0, { s with memory := u }) ∧ u.byte 512 ≠ s.memory.byte 512 := by
  intro s
  obtain ⟨hfirst, hsecond⟩ := shared_mapped
  have hinj : s.memory.InjectiveOnWritable := shared_injectiveOnWritable
  have hbuffer : s.memory.Buffer 0 (1 : BitVec 32).toNat true := by
    intro i hi
    obtain rfl : i = 0 := Nat.lt_one_iff.mp hi
    exact hfirst
  obtain ⟨u, hrun, hstored⟩ := Services.system2User_of_separate (Devices.writesMemory [])
    (r := fun _ => 0) (s := s) (UserMemory.separate_of_writable hinj hbuffer (by decide)) hbuffer
    [65]
  have hbyte : u.byte 512 = 65 := by
    rw [UserMemory.byte, hstored.toSameMap.place]
    exact hstored.written 0 (by decide)
  refine ⟨hinj, hbuffer, ⟨hsecond, by decide⟩, u, hrun, ?_⟩
  rw [hbyte]
  decide

end Nachos
