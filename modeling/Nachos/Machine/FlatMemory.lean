import Nachos.Lib.FlatMemory
import Nachos.Machine.NoCrash

/-!
# Virtual memory is flat

A user program sees one byte at each address of its pages. `ReadMem` and `WriteMem` read and
write the bytes at an aligned address, which are never on two pages, and no other byte that the
program may write, as long as no two such pages have the same frame. A page that can only be read
may share a frame with one of them. It refuses to be written, and shows what is written there.
-/
namespace Nachos

open Bytes (Byte)

/-- The sizes of an access. -/
abbrev AccessSize (size : ℕ) : Prop := size = 1 ∨ size = 2 ∨ size = 4

/-- The address is a multiple of the size. -/
def Aligned (a : BitVec 32) (size : ℕ) : Prop := a.toNat % size = 0

variable {a x v : BitVec 32} {size i : ℕ} {writing : Bool}

/-- The test of `Translate`. -/
theorem misaligned_iff (hsize : AccessSize size) :
    ((size = 4 ∧ a &&& 3 ≠ 0) ∨ (size = 2 ∧ a &&& 1 ≠ 0)) ↔ ¬Aligned a size := by
  have hzero : ∀ b : BitVec 32, b ≠ 0 ↔ b.toNat ≠ 0 := by
    intro b
    rw [ne_eq, ← BitVec.toNat_inj]
    rfl
  simp only [hzero, Word.toNat_and_three, Word.toNat_and_one, Aligned]
  rcases hsize with rfl | rfl | rfl <;> simp [Nat.mod_one]

/-- An aligned access neither leaves its page nor the address space. -/
theorem Aligned.page (ha : Aligned a size) (hsize : AccessSize size) (hi : i < size) :
    (a + BitVec.ofNat 32 i).toNat = a.toNat + i ∧
      (a.toNat + i) / PageSize = a.toNat / PageSize := by
  have hlt := a.isLt
  unfold Aligned at ha
  have hsum : a.toNat + i < 2 ^ 32 := by
    rcases hsize with rfl | rfl | rfl <;> omega
  refine ⟨?_, ?_⟩
  · rw [BitVec.toNat_add, Word.toNat_ofNat (by omega), Nat.mod_eq_of_lt hsum]
  · rw [PageSize]
    rcases hsize with rfl | rfl | rfl <;> omega

namespace UserMemory

variable {u u' : UserMemory}

/-- The frame of the page an address is on. -/
def frame (u : UserMemory) (a : BitVec 32) : Int := (u.pageTable (a.toNat / PageSize)).physicalPage

/-- Pages that can be written have different frames. -/
def InjectiveOnWritable (u : UserMemory) : Prop :=
  ∀ a b, u.Mapped a true → u.Mapped b true → u.frame a = u.frame b →
    a.toNat / PageSize = b.toNat / PageSize

theorem place_add (ha : Aligned a size) (hsize : AccessSize size) (hi : i < size) :
    u.place (a + BitVec.ofNat 32 i) = u.place a + i := by
  obtain ⟨hsum, hpage⟩ := ha.page hsize hi
  simp only [place, hsum, hpage]
  simp only [PageSize] at hpage ⊢
  omega

theorem SameMap.symm (h : SameMap u u') : SameMap u' u := by
  refine ⟨h.size.symm, fun p => ?_⟩
  obtain ⟨h₁, h₂, h₃⟩ := h.entry p
  exact ⟨h₁.symm, h₂.symm, h₃.symm⟩

theorem SameMap.injectiveOnWritable (h : SameMap u u') (hu : u.InjectiveOnWritable) :
    u'.InjectiveOnWritable := by
  intro a b ha hb hframe
  refine hu a b (h.symm.mapped ha) (h.symm.mapped hb) ?_
  rw [frame, frame, ← (h.entry _).1, ← (h.entry _).1]
  exact hframe

/-- With an address, the rest of an aligned access can be accessed. -/
theorem Mapped.add (h : u.Mapped a writing) (ha : Aligned a size) (hsize : AccessSize size)
    (hi : i < size) : u.Mapped (a + BitVec.ofNat 32 i) writing := by
  obtain ⟨hsum, hpage⟩ := ha.page hsize hi
  obtain ⟨h₁, h₂, h₃, h₄, h₅⟩ := h
  constructor <;> rw [hsum, hpage] <;> assumption

/-- A byte of the program that is not one of the `n` bytes from `a` on, nor at the place of one
if its page can only be read. -/
def Elsewhere (u : UserMemory) (a : BitVec 32) (n : ℕ) (x : BitVec 32) : Prop :=
  (u.Mapped x true ∧ ∀ i < n, x ≠ a + BitVec.ofNat 32 i) ∨
  (u.Mapped x false ∧ ∀ i < n, u.place x ≠ u.place (a + BitVec.ofNat 32 i))

/-- The program's memory after `bs` has been written. -/
structure Written (u u' : UserMemory) (a : BitVec 32) (bs : List Byte) : Prop
    extends SameMap u u' where
  written : ∀ i < bs.length, u'.byte (a + BitVec.ofNat 32 i) = bs.getD i 0
  kept : ∀ x, u.Elsewhere a bs.length x → u'.byte x = u.byte x

/-- Of the bytes that can be written no two are at the same place. -/
theorem InjectiveOnWritable.eq_of_place (hu : u.InjectiveOnWritable) (ha : u.Mapped a true)
    (hx : u.Mapped x true) (h : u.place x = u.place a) : x = a := by
  have hframe : u.frame x = u.frame a := by
    simp only [place, frame, PageSize] at h ⊢
    omega
  have hpage := hu x a hx ha hframe
  refine BitVec.eq_of_toNat_eq ?_
  simp only [place, hpage] at h
  simp only [PageSize] at h hpage
  omega

theorem Elsewhere.place_ne {n : ℕ} (hx : u.Elsewhere a n x) (hu : u.InjectiveOnWritable)
    (ha : ∀ i < n, u.Mapped (a + BitVec.ofNat 32 i) true) (hi : i < n) :
    u.place x ≠ u.place (a + BitVec.ofNat 32 i) := by
  rcases hx with ⟨hw, hne⟩ | ⟨-, hne⟩
  · exact fun hplace => hne i hi (hu.eq_of_place (ha i hi) hw hplace)
  · exact hne i hi

theorem written_store (hu : u.InjectiveOnWritable) (ha : u.Mapped a true)
    (halign : Aligned a size) (hsize : AccessSize size) {bs : List Byte} (hbs : bs.length = size) :
    Written u { u.touch a true with mainMemory := Bytes.store u.mainMemory (u.place a) bs } a bs := by
  have hsame := sameMap_touch u a true
  refine ⟨⟨hsame.size, hsame.entry⟩, ?_, ?_⟩
  · intro i hi
    show Bytes.store _ _ _ ((u.touch a true).place _) = _
    rw [hsame.place, place_add halign hsize (hbs ▸ hi), Bytes.store_of_mem (by omega) (by omega),
      add_sub_cancel_left, Int.toNat_natCast]
  · intro x hx
    show Bytes.store _ _ _ ((u.touch a true).place _) = u.mainMemory (u.place x)
    rw [hsame.place]
    refine Bytes.store_of_not_mem ?_
    by_contra hin
    have hi : (u.place x - u.place a).toNat < bs.length := by omega
    have hplace := place_add (u := u) halign hsize (hbs ▸ hi)
    exact hx.place_ne hu (fun j hj => ha.add halign hsize (hbs ▸ hj)) hi (by omega)

end UserMemory

namespace Mips.Machine

open Registers

variable {m : Machine}

/-- An access that is not refused. -/
theorem translate_of_mapped (hsize : AccessSize size) (ha : Aligned a size)
    (h : m.memory.Mapped a writing) : translate a size writing m =
      .done (m.memory.place a) { m with memory := m.memory.touch a writing } := by
  have htranslate := h.translate fun hne => (misaligned_iff hsize).mp hne ha
  have hplace : (m.memory.physAddr a).toInt = m.memory.place a := by
    obtain ⟨h0, -⟩ := translate_inMemory hsize htranslate
    rw [(Word.toNat_of_nonneg h0).1, h.toNat_physAddr]
  unfold translate
  rw [htranslate]
  show (if _ then _ else _) = _
  rw [if_pos (translate_inMemory hsize htranslate), hplace]
  rfl

theorem translate_of_error {e : ExceptionType} (h : Nachos.translate m.memory.pageTable
    m.memory.pageTableSize a size writing = .error e) :
    translate a size writing m = raiseException e a m := by
  unfold translate
  rw [h]

/-- The registers that `RaiseException` hands to the handler. -/
def trapRegisters (m : Machine) (badVAddr : BitVec 32) : Registers :=
  (m.registers.writeRegister BadVAddrReg badVAddr).delayedLoad 0 0

/-- `RaiseException` leaves memory alone. -/
theorem raiseException_apply {α : Type} (e : ExceptionType) (a : BitVec 32) (m : Machine) :
    (raiseException e a : SimM α) m = if (m.registers LoadReg).toNat < NumTotalRegs then
      .trapped e { m with registers := m.trapRegisters a } else .crashed .wildStore := by
  have hload : m.registers.writeRegister BadVAddrReg a LoadReg = m.registers LoadReg :=
    Function.update_of_ne (by decide) _ _
  have hdelayed : delayedLoad 0 0 { m with registers := m.registers.writeRegister BadVAddrReg a } =
      if (m.registers LoadReg).toNat < NumTotalRegs then
        .done () { m with registers := m.trapRegisters a } else .crashed .wildStore := by
    simp only [delayedLoad, hload]
    rfl
  show ((do delayedLoad 0 0; fun m => .trapped e m : SimM α)
    { m with registers := m.registers.writeRegister BadVAddrReg a }) = _
  rw [TrapM.bind_apply, hdelayed]
  by_cases h : (m.registers LoadReg).toNat < NumTotalRegs
  · simp only [if_pos h]
  · simp only [if_neg h]

/-- Nothing comes after an exception. -/
theorem raiseException_bind {α β : Type} {f : α → SimM β} (e : ExceptionType) (a : BitVec 32) :
    (raiseException e a >>= f) m = raiseException e a m := by
  rw [TrapM.bind_apply, raiseException_apply, raiseException_apply]
  by_cases h : (m.registers LoadReg).toNat < NumTotalRegs
  · simp only [if_pos h]
  · simp only [if_neg h]

/-- A misaligned address, or one that is not on a page of the table. -/
def OutOfPlace (m : Machine) (a : BitVec 32) (size : ℕ) : Prop :=
  ¬Aligned a size ∨ m.memory.pageTableSize.toNat ≤ a.toNat / PageSize

theorem OutOfPlace.translate (h : m.OutOfPlace a size) (hsize : AccessSize size) :
    translate a size writing m = raiseException .AddressErrorException a m := by
  refine translate_of_error ?_
  rcases h with hmis | hout
  · simp only [Nachos.translate]
    rw [if_pos ((misaligned_iff hsize).mpr hmis)]
  · simp only [Nachos.translate]
    rw [if_pos hout, ite_self]

theorem readMem_of_mapped (hsize : AccessSize size) (ha : Aligned a size)
    (h : m.memory.Mapped a false) : readMem a size m =
      .done (Flat.value (Flat.read m.memory.byte a size))
        { m with memory := m.memory.touch a false } := by
  have hbyte : ∀ i < size, m.memory.byte (a + BitVec.ofNat 32 i) =
      m.memory.mainMemory (m.memory.place a + i) := by
    intro i hi
    rw [UserMemory.byte, UserMemory.place_add ha hsize hi]
  have hread : Flat.read m.memory.byte a size =
      (List.range size).map fun i : ℕ => m.memory.mainMemory (m.memory.place a + i) :=
    List.map_congr_left fun i hi => hbyte i (List.mem_range.mp hi)
  unfold readMem
  rw [TrapM.bind_of_done (translate_of_mapped hsize ha h), hread]
  rcases hsize with rfl | rfl | rfl
  · simp [List.range_succ, TrapM.bind_apply, TrapM.gets, Flat.value, UserMemory.touch]
  · simp [List.range_succ, TrapM.bind_apply, TrapM.gets, Flat.value_two, UserMemory.touch]
  · simp [List.range_succ, TrapM.bind_apply, TrapM.gets, Flat.value_four, UserMemory.touch]

theorem writeMem_of_mapped (hsize : AccessSize size) (ha : Aligned a size)
    (h : m.memory.Mapped a true) : writeMem a size v m =
      .done () { m with memory := { m.memory.touch a true with
        mainMemory := Bytes.store m.memory.mainMemory (m.memory.place a)
          ((Bytes.ofWord v).take size) } } := by
  unfold writeMem
  rw [TrapM.bind_of_done (translate_of_mapped hsize ha h), if_pos hsize]
  rfl

theorem length_take_ofWord (hsize : AccessSize size) :
    ((Bytes.ofWord v).take size).length = size := by
  rw [List.length_take, Bytes.length_ofWord]
  rcases hsize with rfl | rfl | rfl <;> rfl

/-- `WriteMem` as a flat memory does it. -/
theorem writeMem_written (hsize : AccessSize size) (ha : Aligned a size)
    (h : m.memory.Mapped a true) (hinj : m.memory.InjectiveOnWritable) :
    ∃ m', writeMem a size v m = .done () m' ∧ m'.registers = m.registers ∧
      m.memory.Written m'.memory a ((Bytes.ofWord v).take size) :=
  ⟨_, writeMem_of_mapped hsize ha h, rfl,
    UserMemory.written_store hinj h ha hsize (length_take_ofWord hsize)⟩

/-- `ReadMem` as a flat memory does it. -/
theorem readMem_touched (hsize : AccessSize size) (ha : Aligned a size)
    (h : m.memory.Mapped a false) :
    ∃ m', readMem a size m = .done (Flat.value (Flat.read m.memory.byte a size)) m' ∧
      m'.registers = m.registers ∧ m.memory.Touched m'.memory :=
  ⟨_, readMem_of_mapped hsize ha h, rfl, ⟨UserMemory.sameMap_touch _ _ _, rfl⟩⟩

/-- `RaiseException` is called, and the handler finds memory as it was. -/
def Refuses {α : Type} (c : SimM α) (m : Machine) (a : BitVec 32) : Prop :=
  ∃ e, c m = raiseException e a m ∧
    (LoadRegValid m → ∃ m', c m = .trapped e m' ∧ m'.memory = m.memory)

theorem refuses_of_eq {α : Type} {c : SimM α} {e : ExceptionType}
    (h : c m = raiseException e a m) : Refuses c m a :=
  ⟨e, h, fun hv => ⟨_, h.trans ((raiseException_apply e a m).trans (if_pos hv)), rfl⟩⟩

/-- A page that is there but can only be read. -/
theorem translate_readOnly (hsize : AccessSize size) (ha : Aligned a size)
    (h : m.memory.Mapped a false) (hw : ¬m.memory.Mapped a true) :
    translate a size true m = raiseException .ReadOnlyException a m := by
  have halign : ¬((size = 4 ∧ a &&& 3 ≠ 0) ∨ (size = 2 ∧ a &&& 1 ≠ 0)) :=
    fun hne => (misaligned_iff hsize).mp hne ha
  have hreadOnly : (m.memory.pageTable (a.toNat / PageSize)).readOnly = true := by
    by_contra hpermitted
    exact hw ⟨h.page, h.valid, fun _ => by simpa using hpermitted, h.frame, h.frame_lt⟩
  have hpage := h.page
  refine translate_of_error ?_
  simp only [Nachos.translate]
  rw [if_neg halign, if_neg (by omega), if_neg (by simp [h.valid]), if_pos (by simp [hreadOnly])]

theorem refuses_of_translate {α : Type} {f : Int → SimM α} {e : ExceptionType}
    (h : Machine.translate a size writing m = raiseException e a m) :
    Refuses (Machine.translate a size writing >>= f) m a := by
  refine refuses_of_eq (e := e) ?_
  rw [TrapM.bind_apply, h, ← TrapM.bind_apply, raiseException_bind]

theorem OutOfPlace.refuses {α : Type} {f : Int → SimM α} (h : m.OutOfPlace a size)
    (hsize : AccessSize size) : Refuses (Machine.translate a size writing >>= f) m a :=
  refuses_of_translate (h.translate hsize)

/-- User memory is a flat memory of bytes. Bytes of an aligned access are on one page; `WriteMem`
changes them and no others, `ReadMem` returns their value, and an access that is misaligned or
outside the page table, or writes a page that can only be read, is refused. -/
theorem flat_memory (m : Machine) (hinj : m.memory.InjectiveOnWritable) (a v : BitVec 32)
    (size : ℕ) (hsize : AccessSize size) :
    (Aligned a size → m.memory.Mapped a true → ∃ m', writeMem a size v m = .done () m' ∧
      m'.registers = m.registers ∧
      m.memory.Written m'.memory a ((Bytes.ofWord v).take size)) ∧
    (Aligned a size → m.memory.Mapped a false → ∃ m',
      readMem a size m = .done (Flat.value (Flat.read m.memory.byte a size)) m' ∧
      m'.registers = m.registers ∧ m.memory.Touched m'.memory) ∧
    (Aligned a size → ∀ i < size, (a + BitVec.ofNat 32 i).toNat = a.toNat + i ∧
      (a + BitVec.ofNat 32 i).toNat / PageSize = a.toNat / PageSize) ∧
    (m.OutOfPlace a size → Refuses (readMem a size) m a ∧ Refuses (writeMem a size v) m a) ∧
    (Aligned a size → m.memory.Mapped a false → ¬m.memory.Mapped a true →
      Refuses (writeMem a size v) m a) := by
  refine ⟨fun ha h => writeMem_written hsize ha h hinj, fun ha h => readMem_touched hsize ha h,
    ?_, fun h => ⟨h.refuses hsize, h.refuses hsize⟩,
    fun ha h hw => refuses_of_translate (translate_readOnly hsize ha h hw)⟩
  intro ha i hi
  obtain ⟨hsum, hpage⟩ := ha.page hsize hi
  exact ⟨hsum, hsum ▸ hpage⟩

/-- What has been written is read again: the low half of a word, or all of it. -/
theorem readMem_writeMem (hinj : m.memory.InjectiveOnWritable) (hsize : size = 2 ∨ size = 4)
    (ha : Aligned a size) (h : m.memory.Mapped a true) :
    ∃ m' m'', writeMem a size v m = .done () m' ∧
      readMem a size m' = .done (BitVec.ofNat 32 (v.toNat % 256 ^ size)) m'' := by
  have hlen := length_take_ofWord (v := v) (.inr hsize)
  obtain ⟨m', hwrite, -, hwritten⟩ := writeMem_written (v := v) (.inr hsize) ha h hinj
  obtain ⟨m'', hread, -, -⟩ := readMem_touched (.inr hsize) ha (hwritten.mapped h).read
  have hbytes : Flat.read m'.memory.byte a size = (Bytes.ofWord v).take size := by
    refine Bytes.ext_getD (by simp [Flat.read, hlen]) fun i hi => ?_
    have hi' : i < size := by simpa [Flat.read] using hi
    rw [← hwritten.written i (by omega), List.getD_eq_getElem _ _ hi]
    simp only [Flat.read, List.getElem_map, List.getElem_range]
  have hvalue : Flat.value ((Bytes.ofWord v).take size) =
      BitVec.ofNat 32 (Bytes.littleEndian ((Bytes.ofWord v).take size)) := by
    rcases hsize with rfl | rfl <;> rfl
  rw [hbytes, hvalue, Bytes.littleEndian_ofWord v (by omega)] at hread
  exact ⟨m', m'', hwrite, hread⟩

/-- A program of two pages, in frames that are in the opposite order. -/
def twoPages : UserMemory where
  mainMemory _ := 0
  pageTable p := ⟨p, 3 - p, true, false, false, false⟩
  pageTableSize := 2

theorem twoPages_injectiveOnWritable : twoPages.InjectiveOnWritable := by
  intro a b ha hb hframe
  simp only [UserMemory.frame, twoPages] at hframe
  omega

theorem twoPages_mapped {a : BitVec 32} (ha : a.toNat < 2 * PageSize) : twoPages.Mapped a true := by
  have hpage : a.toNat / PageSize < 2 := Nat.div_lt_of_lt_mul (by rwa [Nat.mul_comm])
  refine ⟨hpage, rfl, fun _ => rfl, ?_, ?_⟩
  · show (0 : Int) ≤ 3 - ((a.toNat / PageSize : ℕ) : Int)
    omega
  · show (3 : Int) - ((a.toNat / PageSize : ℕ) : Int) < NumPhysPages
    rw [PageSize, NumPhysPages]
    omega

theorem flat_memory_twoPages : twoPages.InjectiveOnWritable ∧
    ∃ m', writeMem 510 2 0x1234 ⟨fun _ => 0, twoPages⟩ = .done () m' ∧
      m'.memory.byte 510 = 0x34 ∧ m'.memory.byte 511 = 0x12 := by
  have hinj := twoPages_injectiveOnWritable
  have hmapped : twoPages.Mapped 510 true := twoPages_mapped (by decide)
  obtain ⟨m', hrun, -, hwritten⟩ := (flat_memory ⟨fun _ => 0, twoPages⟩ hinj 510 0x1234 2
    (.inr (.inl rfl))).1 (by decide : 510 % 2 = 0) hmapped
  exact ⟨hinj, m', hrun, hwritten.written 0 (by decide), hwritten.written 1 (by decide)⟩

/-- A page that can be written, and one that can only be read in the same frame. -/
def shared : UserMemory where
  mainMemory _ := 0
  pageTable p := ⟨p, 3, true, p != 0, false, false⟩
  pageTableSize := 2

theorem shared_injectiveOnWritable : shared.InjectiveOnWritable := by
  have hpage : ∀ a, shared.Mapped a true → a.toNat / PageSize = 0 := by
    intro a ha
    have hwritable : (a.toNat / PageSize != 0) = false := ha.permitted rfl
    simpa using hwritable
  intro a b ha hb _
  rw [hpage a ha, hpage b hb]

theorem shared_mapped : shared.Mapped 0 true ∧ shared.Mapped 512 false :=
  ⟨⟨by decide, rfl, fun _ => rfl, by decide, by decide⟩,
    ⟨by decide, rfl, fun h => absurd h Bool.false_ne_true, by decide, by decide⟩⟩

/-- Both pages are valid. A byte that is written on the first changes on the second one too, and
on the second one `WriteMem` is refused. -/
theorem flat_memory_shared : shared.InjectiveOnWritable ∧ shared.Mapped 0 true ∧
    shared.Mapped 512 false ∧
    (∃ m', writeMem 0 1 65 ⟨fun _ => 0, shared⟩ = .done () m' ∧
      m'.memory.byte 512 ≠ shared.byte 512) ∧
    ∃ m', writeMem 512 1 65 ⟨fun _ => 0, shared⟩ = .trapped .ReadOnlyException m' := by
  obtain ⟨hfirst, hsecond⟩ := shared_mapped
  have haligned : ∀ a, Aligned a 1 := fun a => Nat.mod_one _
  refine ⟨shared_injectiveOnWritable, hfirst, hsecond, ?_, ?_⟩
  · obtain ⟨m', hrun, -, hwritten⟩ := writeMem_written (m := ⟨fun _ => 0, shared⟩) (v := 65)
      (.inl rfl) (haligned 0) hfirst shared_injectiveOnWritable
    have hbyte : m'.memory.byte 512 = 65 := by
      have hwrote := hwritten.written 0 (by decide)
      rw [UserMemory.byte, hwritten.place] at hwrote ⊢
      exact hwrote
    refine ⟨m', hrun, ?_⟩
    rw [hbyte]
    decide
  · have hw : ¬shared.Mapped 512 true := fun h => absurd (h.permitted rfl) (by decide)
    have htranslate := translate_readOnly (m := ⟨fun _ => 0, shared⟩) (.inl rfl) (haligned 512)
      hsecond hw
    have hraise := raiseException_apply (α := Unit) .ReadOnlyException 512 ⟨fun _ => 0, shared⟩
    rw [if_pos (by decide)] at hraise
    refine ⟨_, Eq.trans ?_ hraise⟩
    rw [writeMem, TrapM.bind_apply, htranslate, ← TrapM.bind_apply, raiseException_bind]

/-! ## Sequences of accesses -/

/-- One access of a program. -/
def access : Flat.Access → SimM (List (BitVec 32))
  | .read a size => do
    let value ← readMem a size
    pure [value]
  | .write a size v => do
    writeMem a size v
    pure []

def accesses : List Flat.Access → SimM (List (BitVec 32))
  | [] => pure []
  | x :: xs => do
    let values ← access x
    let rest ← accesses xs
    pure (values ++ rest)

/-- An access that the memory permits. -/
structure Permitted (u : UserMemory) (x : Flat.Access) : Prop where
  size : AccessSize x.size
  aligned : Aligned x.address x.size
  mapped : u.Mapped x.address true

/-- What the program can write is as in `f`. -/
def Agrees (u : UserMemory) (f : Flat) : Prop := ∀ a, u.Mapped a true → u.byte a = f a

/-- Memory and flat memory go together, access by access. -/
theorem access_agrees {x : Flat.Access} {f : Flat} (hinj : m.memory.InjectiveOnWritable)
    (hx : Permitted m.memory x) (hf : Agrees m.memory f) :
    ∃ m', access x m = .done (x.run f).1 m' ∧ m'.registers = m.registers ∧
      m.memory.SameMap m'.memory ∧ Agrees m'.memory (x.run f).2 := by
  obtain ⟨hsize, ha, hmapped⟩ := hx
  cases x with
  | read a size =>
    simp only [Flat.Access.size, Flat.Access.address] at hsize ha hmapped
    obtain ⟨m', hrun, hreg, htouch⟩ := readMem_touched hsize ha hmapped.read
    have hread : Flat.read m.memory.byte a size = Flat.read f a size :=
      Flat.read_congr fun i hi => hf _ (hmapped.add ha hsize hi)
    refine ⟨m', ?_, hreg, htouch.toSameMap, ?_⟩
    · rw [hread] at hrun
      exact TrapM.bind_of_done hrun
    · intro b hb
      rw [UserMemory.byte, htouch.main, htouch.place]
      exact hf b (htouch.symm.mapped hb)
  | write a size v =>
    simp only [Flat.Access.size, Flat.Access.address] at hsize ha hmapped
    obtain ⟨m', hrun, hreg, hwritten⟩ := writeMem_written (v := v) hsize ha hmapped hinj
    refine ⟨m', ?_, hreg, hwritten.toSameMap, ?_⟩
    · exact TrapM.bind_of_done hrun
    · intro b hb
      have hb' := hwritten.symm.mapped hb
      have hlen := length_take_ofWord (v := v) hsize
      by_cases hin : ∃ i < ((Bytes.ofWord v).take size).length, b = a + BitVec.ofNat 32 i
      · obtain ⟨i, hi, rfl⟩ := hin
        rw [hwritten.written i hi]
        exact (Flat.write_add hi (by rcases hsize with h | h | h <;> omega)).symm
      · have hne : ∀ i < ((Bytes.ofWord v).take size).length, b ≠ a + BitVec.ofNat 32 i :=
          fun i hi he => hin ⟨i, hi, he⟩
        rw [hwritten.kept b (.inl ⟨hb', hne⟩), hf b hb']
        exact (Flat.write_of_ne hne).symm

/-- A whole sequence of accesses reads what it reads in a flat memory, and leaves what it leaves
there. -/
theorem accesses_agrees (xs : List Flat.Access) {f : Flat} (hinj : m.memory.InjectiveOnWritable)
    (hxs : ∀ x ∈ xs, Permitted m.memory x) (hf : Agrees m.memory f) :
    ∃ m', accesses xs m = .done (Flat.runs xs f).1 m' ∧ m'.registers = m.registers ∧
      m.memory.SameMap m'.memory ∧ Agrees m'.memory (Flat.runs xs f).2 := by
  induction xs generalizing m f with
  | nil => exact ⟨m, rfl, rfl, .refl _, hf⟩
  | cons x xs ih =>
    obtain ⟨m₁, hrun₁, hreg₁, hsame₁, hf₁⟩ :=
      access_agrees hinj (hxs x List.mem_cons_self) hf
    have hxs₁ : ∀ y ∈ xs, Permitted m₁.memory y := by
      intro y hy
      obtain ⟨h₁, h₂, h₃⟩ := hxs y (List.mem_cons_of_mem x hy)
      exact ⟨h₁, h₂, hsame₁.mapped h₃⟩
    obtain ⟨m₂, hrun₂, hreg₂, hsame₂, hf₂⟩ := ih (hsame₁.injectiveOnWritable hinj) hxs₁ hf₁
    refine ⟨m₂, ?_, hreg₂.trans hreg₁, hsame₁.trans hsame₂, hf₂⟩
    unfold accesses
    rw [TrapM.bind_of_done hrun₁, TrapM.bind_of_done hrun₂]
    rfl

end Mips.Machine

end Nachos
