import Nachos.Machine.Architecture

/-!
# Arithmetic of the simulator

One instruction that writes one general register, and what the architecture says it should write
there. `OR` reads one operand twice, and `SRL` and `SRLV` repeat the sign.
-/
namespace Nachos.Mips.Machine

open Registers

variable {m m₁ : Machine} {word v v' : BitVec 32} {d i : Fin 32} {debug : Bool} {rest : Rest}
  {c : OpCode} {f : BitVec 32 → BitVec 32 → BitVec 32} {n : ℕ}

/-- `ReadMem` returns the word at the program counter. -/
def Fetches (m : Machine) (word : BitVec 32) : Prop :=
  ∃ m₁, readMem (m.registers PCReg) 4 m = .done word m₁

def general (m : Machine) : RegFile := fun i => m.registers (gpr i)

/-- A general register has been written. -/
def wrote (m : Machine) (d : Fin 32) (v : BitVec 32) : Machine :=
  { m with registers := m.registers.writeRegister (gpr d) v }

theorem gpr_ne {j : Fin NumTotalRegs} (hj : 32 ≤ j.val) : gpr i ≠ j := by
  rintro rfl
  have : i.val < 32 := i.isLt
  exact absurd hj (by show ¬32 ≤ i.val; omega)

theorem gpr_inj : gpr i = gpr d ↔ i = d := by
  constructor
  · intro h
    have hval : i.val = d.val := congrArg (fun j : Fin NumTotalRegs => j.val) h
    exact Fin.ext hval
  · rintro rfl
    rfl

theorem gpr_ne_zero (hi : i ≠ 0) : gpr i ≠ 0 := by
  intro h
  exact hi (gpr_inj.mp h)

theorem loadRegValid_of_valid (hm : m.registers.Valid) : LoadRegValid m := by
  have := hm.load
  rw [LoadRegValid, NumTotalRegs]
  omega

theorem wrote_special {j : Fin NumTotalRegs} (hj : 32 ≤ j.val) :
    (m.wrote d v).registers j = m.registers j :=
  Function.update_of_ne (gpr_ne hj).symm _ _

theorem wrote_general : (m.wrote d v).general i = Function.update m.general d v i := by
  by_cases hi : i = d
  · subst hi
    rw [Function.update_self]
    exact Function.update_self ..
  · rw [Function.update_of_ne hi]
    exact Function.update_of_ne (fun h => hi (gpr_inj.mp h)) _ _

/-- At the end of an instruction a load that was under way reaches its register. -/
theorem completed_general (hi : i ≠ 0) : m.completed rest (gpr i) =
    if (m.registers LoadReg).toNat = i then m.registers LoadValueReg else m.general i := by
  have hdelayed := delayedLoad_apply (r := m.registers)
    (n := BitVec.ofNat 32 rest.nextLoadReg) (v := rest.nextLoadValue) (gpr_ne_zero hi)
    (gpr_ne (i := i) (j := LoadReg) (by decide)) (gpr_ne (j := LoadValueReg) (by decide))
  simp only [completed, writeRegister, Function.update_of_ne (gpr_ne (i := i) (j := NextPCReg)
    (by decide)), Function.update_of_ne (gpr_ne (i := i) (j := PCReg) (by decide)),
    Function.update_of_ne (gpr_ne (i := i) (j := PrevPCReg) (by decide))]
  exact hdelayed

theorem completed_zero : m.completed rest 0 = 0 := by
  have h1 : (0 : Fin NumTotalRegs) ≠ NextPCReg := by decide
  have h2 : (0 : Fin NumTotalRegs) ≠ PCReg := by decide
  have h3 : (0 : Fin NumTotalRegs) ≠ PrevPCReg := by decide
  simp only [completed, writeRegister, Function.update_of_ne h1, Function.update_of_ne h2,
    Function.update_of_ne h3]
  exact delayedLoad_zero

/-- An instruction that goes on to the next one when it has written a register. -/
def Writes (m : Machine) (word : BitVec 32) (d : Fin 32) (v : BitVec 32) : Prop :=
  ∀ pcAfter, execute (decode word) pcAfter m = .done ⟨pcAfter, r0, 0⟩ (m.wrote d v)

theorem Writes.oneInstruction (h : Writes m₁ word d v) (debug : Bool)
    (hfetch : readMem (m.registers PCReg) 4 m = .done word m₁) (hload : LoadRegValid m) :
    ∃ m', oneInstruction debug m = .done () m' ∧
      m'.registers = (m.wrote d v).completed ⟨m.registers NextPCReg + 4, 0, 0⟩ := by
  have hreg := readMem_registers hfetch
  have hfetched : fetchExecute debug m =
      .done ⟨m.registers NextPCReg + 4, 0, 0⟩ (m₁.wrote d v) := by
    rw [fetchExecute_of_done debug hfetch]
    exact h _
  have hvalid : LoadRegValid (m₁.wrote d v) := by
    rw [LoadRegValid, wrote_special (by decide), hreg]
    exact hload
  have hrun := (TrapM.bind_of_done (f := complete) hfetched).trans (complete_of_valid hvalid _)
  refine ⟨_, hrun, ?_⟩
  simp only [completed, wrote, hreg]

/-- What such an instruction leaves in the general registers. -/
theorem Writes.result (h : Writes m₁ word d v) (debug : Bool)
    (hfetch : readMem (m.registers PCReg) 4 m = .done word m₁) (hload : LoadRegValid m) :
    ∃ m', Machine.oneInstruction debug m = .done () m' ∧ m'.registers 0 = 0 ∧
      ∀ i ≠ 0, m'.general i =
        if (m.registers LoadReg).toNat = i then m.registers LoadValueReg
        else Function.update m.general d v i := by
  obtain ⟨m', hrun, hreg⟩ := h.oneInstruction debug hfetch hload
  refine ⟨m', hrun, ?_, fun i hi => ?_⟩
  · rw [hreg]
    exact completed_zero
  · rw [general, hreg, completed_general hi, wrote_special (by decide), wrote_special (by decide),
      wrote_general]

/-! ## Following the architecture -/

/-- The instruction is executed, its result is in its register, and the others are unchanged. An
operation that the architecture does not have has no result. -/
def Follows (debug : Bool) (m : Machine) : Option (Fin 32 × BitVec 32) → Prop
  | none => False
  | some (d, v) => ∃ m', oneInstruction debug m = .done () m' ∧ m'.registers 0 = 0 ∧
    ∀ i ≠ r0, m'.general i = Function.update m.general d v i

/-- The instruction is executed, and its result is in its register. A load that was under way has
reached its own, and the others are unchanged. -/
def Receives (debug : Bool) (m : Machine) : Option (Fin 32 × BitVec 32) → Prop
  | none => False
  | some (d, v) => ∃ m', oneInstruction debug m = .done () m' ∧ m'.registers 0 = 0 ∧
    (d ≠ r0 → m'.general d = v) ∧ ∀ i ≠ r0, i ≠ d → m'.general i =
      if (m.registers LoadReg).toNat = i then m.registers LoadValueReg else m.general i

/-- A load into the register of the result comes after the result. -/
theorem Writes.receives_iff (h : Writes m₁ word d v)
    (hfetch : readMem (m.registers PCReg) 4 m = .done word m₁) (hload : LoadRegValid m) :
    Receives debug m (some (d, v')) ↔
      d = 0 ∨ (if (m.registers LoadReg).toNat = d then m.registers LoadValueReg else v) = v' := by
  obtain ⟨m', hrun, hzero, hgeneral⟩ := h.result debug hfetch hload
  have hresult : d ≠ 0 → m'.general d =
      if (m.registers LoadReg).toNat = d then m.registers LoadValueReg else v := by
    intro hd
    rw [hgeneral d hd, Function.update_self]
  constructor
  · rintro ⟨m'', hrun', -, hreceived, -⟩
    rw [hrun] at hrun'
    cases hrun'
    by_cases hd : d = 0
    · exact .inl hd
    · exact .inr ((hresult hd).symm.trans (hreceived hd))
  · intro hd
    refine ⟨m', hrun, hzero, fun hne => ?_, fun i hi hid => ?_⟩
    · exact (hresult hne).trans (hd.resolve_left hne)
    · rw [hgeneral i hi, Function.update_of_ne hid]

theorem loadReg_ne (hload : m.registers LoadReg = 0) (hi : i ≠ r0) :
    ¬(m.registers LoadReg).toNat = i := by
  rw [hload]
  intro h0
  exact hi (Fin.ext h0.symm)

/-- With no load under way both say the same. -/
theorem follows_iff_receives {x : Option (Fin 32 × BitVec 32)} (hload : m.registers LoadReg = 0) :
    Follows debug m x ↔ Receives debug m x := by
  cases x with
  | none => exact Iff.rfl
  | some r =>
    constructor
    · rintro ⟨m', hrun, hzero, hgeneral⟩
      refine ⟨m', hrun, hzero, fun hd => ?_, fun i hi hid => ?_⟩
      · rw [hgeneral r.1 hd, Function.update_self]
      · rw [hgeneral i hi, Function.update_of_ne hid, if_neg (loadReg_ne hload hi)]
    · rintro ⟨m', hrun, hzero, hreceived, hgeneral⟩
      refine ⟨m', hrun, hzero, fun i hi => ?_⟩
      by_cases hid : i = r.1
      · subst hid
        rw [hreceived hi, Function.update_self]
      · rw [hgeneral i hi hid, if_neg (loadReg_ne hload hi), Function.update_of_ne hid]

theorem Writes.follows_iff (h : Writes m₁ word d v)
    (hfetch : readMem (m.registers PCReg) 4 m = .done word m₁) (hload : m.registers LoadReg = 0) :
    Follows debug m (some (d, v')) ↔ d = 0 ∨ v = v' := by
  have hvalid : LoadRegValid m := by
    rw [LoadRegValid, hload]
    decide
  rw [follows_iff_receives hload, h.receives_iff hfetch hvalid]
  by_cases hd : d = 0
  · simp only [hd, true_or]
  · rw [if_neg (loadReg_ne hload hd)]

theorem general_of_fetch (hfetch : readMem (m.registers PCReg) 4 m = .done word m₁) :
    m₁.general = m.general := by
  funext i
  rw [general, general, readMem_registers hfetch]

open Architecture (logical shift exact rs rt rd funct op immediate shamt shiftAmount)

theorem special_writes (hc : (decode word).opCode = c) (hlisted : c.Listed) (hmem : c ∈ specialTable)
    (halu : ∀ pcAfter, execute (decode word) pcAfter = alu (decode word) pcAfter f) :
    (op word).toNat = 0 ∧ (funct word).toNat = specialTable.idxOf c ∧
      (decode word).extra = (shamt word).setWidth 32 ∧
      Writes m word (rd word) (f (m.general (rs word)) (m.general (rt word))) := by
  obtain ⟨hop, hfunct, hextra⟩ := decode_special hc hlisted hmem
  obtain ⟨hrs, hrt, hrd⟩ := decode_fields word
  refine ⟨hop, hfunct, hextra, fun pcAfter => ?_⟩
  rw [halu, ← hrs, ← hrt, ← hrd]
  rfl

theorem immediate_writes (hc : (decode word).opCode = c) (hmem : c ∈ OpCode.immediates)
    (halu : ∀ pcAfter, execute (decode word) pcAfter = aluImm (decode word) pcAfter f) :
    (op word).toNat = (opTable.map Prod.fst).idxOf c ∧
      Writes m word (rt word) (f (m.general (rs word)) ((immediate word).signExtend 32)) := by
  obtain ⟨hop, hextra⟩ := decode_immediate hc hmem
  obtain ⟨hrs, hrt, hrd⟩ := decode_fields word
  refine ⟨hop, fun pcAfter => ?_⟩
  rw [halu, ← hrs, ← hrt, ← hextra]
  rfl

/-! ## Logic and comparisons -/

def logicalSpecials : List OpCode := [.ADDU, .SUBU, .AND, .OR, .XOR, .NOR, .SLT, .SLTU]

def logicalImmediates : List OpCode := [.ADDIU, .SLTI, .SLTIU, .ANDI, .ORI, .XORI, .LUI]

def logicalCodes : List OpCode := logicalSpecials ++ logicalImmediates

/-- The simulator writes the register that the architecture says, and but for `OR` the value. -/
theorem logical_special (m : Machine) (hop : (decode word).opCode ∈ logicalSpecials) :
    ∃ v v', logical word m.general = some (rd word, v') ∧ Writes m word (rd word) v ∧
      (v = v' ↔ ((decode word).opCode = .OR →
        m.general (rs word) = m.general (rs word) ||| m.general (rt word))) := by
  simp only [logicalSpecials, List.mem_cons, List.not_mem_nil, or_false] at hop
  rcases hop with hc | hc | hc | hc | hc | hc | hc | hc
  all_goals
    obtain ⟨hop, hfunct, -, hw⟩ := special_writes (m := m) hc (by decide) (by decide)
      fun pcAfter => by simp only [execute, hc]; rfl
    simp only [specialTable_numbers] at hfunct
    simp only [logical, hop, hfunct]
    refine ⟨_, _, rfl, hw, ?_⟩
    simp [hc, BitVec.slt_iff_toInt_lt, BitVec.ult_eq_decide]

theorem logical_immediate (m : Machine) (hop : (decode word).opCode ∈ logicalImmediates) :
    ∃ v, logical word m.general = some (rt word, v) ∧ Writes m word (rt word) v := by
  simp only [logicalImmediates, List.mem_cons, List.not_mem_nil, or_false] at hop
  rcases hop with hc | hc | hc | hc | hc | hc | hc
  case inr.inr.inr.inr.inr.inr =>
    obtain ⟨hop, hw⟩ := immediate_writes (m := m) (f := fun _ extra => extra <<< 16) hc (by decide)
      fun pcAfter => by simp only [execute, hc]; rfl
    simp only [opTable_numbers] at hop
    rw [Word.signExtend_shiftLeft] at hw
    refine ⟨_, ?_, hw⟩
    simp only [logical, hop]
  all_goals
    obtain ⟨hop, hw⟩ := immediate_writes (m := m) hc (by decide)
      fun pcAfter => by simp only [execute, hc]; rfl
    simp only [opTable_numbers] at hop
    refine ⟨_, ?_, hw⟩
    simp only [logical, hop, Word.signExtend_and_low] <;>
      simp [BitVec.slt_iff_toInt_lt, BitVec.ult_eq_decide, BitVec.toInt_signExtend_of_le]

/-- With no load under way, each of the fifteen instructions follows the architecture, but for an
`OR` whose second operand has a bit that the first one has not. -/
theorem follows_logical_iff (hfetch : Fetches m word)
    (hload : m.registers LoadReg = 0) (hop : (decode word).opCode ∈ logicalCodes) :
    Follows debug m (logical word m.general) ↔ ((decode word).opCode = .OR → rd word = 0 ∨
      m.general (rs word) = m.general (rs word) ||| m.general (rt word)) := by
  obtain ⟨m₁, hfetch⟩ := hfetch
  rcases List.mem_append.mp hop with hspecial | himmediate
  · obtain ⟨v, v', hlogical, hw, hsame⟩ := logical_special m₁ hspecial
    rw [general_of_fetch hfetch] at hlogical hsame
    rw [hlogical, hw.follows_iff hfetch hload, hsame]
    by_cases hor : (decode word).opCode = .OR
    · simp only [hor, true_imp_iff]
    · simp only [hor, false_imp_iff, or_true]
  · obtain ⟨v, hlogical, hw⟩ := logical_immediate m₁ himmediate
    rw [general_of_fetch hfetch] at hlogical
    have hor : (decode word).opCode ≠ .OR := by
      intro h
      rw [h] at himmediate
      exact absurd himmediate (by decide)
    rw [hlogical, hw.follows_iff hfetch hload]
    simp only [hor, false_imp_iff, or_true]

/-- A machine that is to execute `word`, with nothing but `v` in `r2`. -/
def operand (word v : BitVec 32) : Machine := sample word fun i => if i = 2 then v else 0

/-- `NOR r3,r1,r2`. -/
theorem follows_logical_nor :
    Follows false (operand 0x00221827 1) (logical 0x00221827 (operand 0x00221827 1).general) := by
  have hfetch : Fetches (operand 0x00221827 1) 0x00221827 := ⟨_, rfl⟩
  exact (follows_logical_iff hfetch rfl (by decide)).mpr fun h => absurd h (by decide)

/-- `OR r3,r1,r2` of `0` and `1`. -/
theorem follows_logical_or :
    Fetches (operand 0x00221825 1) 0x00221825 ∧ (decode 0x00221825).opCode = .OR ∧
    ¬Follows false (operand 0x00221825 1) (logical 0x00221825 (operand 0x00221825 1).general) := by
  refine ⟨⟨_, rfl⟩, rfl, ?_⟩
  rintro ⟨m', hrun, -, hgeneral⟩
  cases hrun
  exact absurd (hgeneral 3 (by decide)) (by decide)

/-! ## Shifts -/

def shiftCodes : List OpCode := [.SLL, .SLLV, .SRA, .SRAV, .SRL, .SRLV]

theorem toNat_and_amount (x : BitVec 32) : (x &&& 0x1f).toNat = x.toNat % 32 := by
  rw [BitVec.toNat_and]
  exact Nat.and_two_pow_sub_one_eq_mod x.toNat 5

theorem toNat_shamt : ((shamt word).setWidth 32).toNat = (shamt word).toNat := by
  have hshamt : (shamt word).toNat < 32 := (shamt word).isLt
  rw [BitVec.toNat_setWidth]
  exact Nat.mod_eq_of_lt (by omega)

/-- A right shift of the simulator always repeats the sign. -/
theorem shift_writes (m : Machine) (hop : (decode word).opCode ∈ shiftCodes) :
    ∃ v v', shift word m.general = some (rd word, v') ∧ Writes m word (rd word) v ∧
      (v = v' ↔ ((decode word).opCode ∈ [.SRL, .SRLV] →
        0 ≤ (m.general (rt word)).toInt ∨ shiftAmount word m.general = 0)) := by
  simp only [shiftCodes, List.mem_cons, List.not_mem_nil, or_false] at hop
  rcases hop with hc | hc | hc | hc | hc | hc
  all_goals
    obtain ⟨hop, hfunct, hextra, hw⟩ := special_writes (m := m) hc (by decide) (by decide)
      fun pcAfter => by simp only [execute, hc]; rfl
    simp only [specialTable_numbers] at hfunct
    simp only [shift, shiftAmount, hop, hfunct]
    refine ⟨_, _, rfl, hw, ?_⟩
    simp only [hextra, toNat_shamt, toNat_and_amount, BitVec.shiftLeft_eq', hc]
    simp [Word.sshiftRight_eq_ushiftRight_iff]

/-- Each of the six shifts follows the architecture, but for a logical right shift, by one place at
least, of a negative operand, and where a load of another value into the same register is under
way. -/
theorem follows_shift_iff (hfetch : Fetches m word) (hm : m.registers.Valid)
    (hop : (decode word).opCode ∈ shiftCodes) :
    Receives debug m (shift word m.general) ↔ rd word = 0 ∨
      if (m.registers LoadReg).toNat = rd word then
        shift word m.general = some (rd word, m.registers LoadValueReg)
      else (decode word).opCode ∈ [.SRL, .SRLV] →
        0 ≤ (m.general (rt word)).toInt ∨ shiftAmount word m.general = 0 := by
  obtain ⟨m₁, hfetch⟩ := hfetch
  obtain ⟨v, v', hshift, hw, hsame⟩ := shift_writes m₁ hop
  rw [general_of_fetch hfetch] at hshift hsame
  rw [hshift, hw.receives_iff hfetch (loadRegValid_of_valid hm), ← hsame]
  split
  · simp only [Option.some.injEq, Prod.mk.injEq, true_and, eq_comm]
  · rfl

/-- `SRA r3,r2,4` of a negative number. -/
theorem follows_shift_sra : Receives false (operand 0x00021903 SIGN_BIT)
    (shift 0x00021903 (operand 0x00021903 SIGN_BIT).general) := by
  have hfetch : Fetches (operand 0x00021903 SIGN_BIT) 0x00021903 := ⟨_, rfl⟩
  refine (follows_shift_iff hfetch (by decide) (by decide)).mpr (.inr ?_)
  rw [if_neg (by decide)]
  exact fun h => absurd h (by decide)

/-- `SRL r3,r2,4` of the same number. -/
theorem follows_shift_srl :
    Fetches (operand 0x00021902 SIGN_BIT) 0x00021902 ∧ (decode 0x00021902).opCode = .SRL ∧
    ¬Receives false (operand 0x00021902 SIGN_BIT)
      (shift 0x00021902 (operand 0x00021902 SIGN_BIT).general) := by
  refine ⟨⟨_, rfl⟩, rfl, ?_⟩
  rintro ⟨m', hrun, -, hreceived, -⟩
  cases hrun
  exact absurd (hreceived (by decide)) (by decide)

/-! ## Arithmetic that traps -/

open Word (Fits)

def exactCodes : List OpCode := [.ADD, .ADDI, .SUB]

/-- A result is written, or `OverflowException` raised before it is. -/
theorem overflow_apply {p : Prop} [Decidable p] {z : ℤ} (pcAfter : BitVec 32) (hp : p ↔ ¬Fits z)
    (hv : v = BitVec.ofInt 32 z) :
    (if p then raiseException .OverflowException 0
      else do
        writeReg (gpr d) v
        pure ⟨pcAfter, 0, 0⟩ : SimM Rest) m =
      if ¬Fits z then raiseException .OverflowException 0 m
      else .done ⟨pcAfter, 0, 0⟩ (m.wrote d (BitVec.ofInt 32 z)) := by
  subst hv
  by_cases h : p
  · rw [if_pos h, if_pos (hp.mp h)]
  · rw [if_neg h, if_neg fun hz => h (hp.mpr hz)]
    rfl

theorem xor_sign_ne_zero (x y : BitVec 32) : (x ^^^ y) &&& SIGN_BIT ≠ 0 ↔ x.msb ≠ y.msb :=
  not_congr Word.xor_sign_eq_zero

/-- The three tests of sign bits are tests of the exact result. -/
theorem exact_execute (m : Machine) (hop : (decode word).opCode ∈ exactCodes) :
    ∃ d z, exact word m.general = some (d, z) ∧ ∀ pcAfter,
      execute (decode word) pcAfter m = if ¬Fits z then raiseException .OverflowException 0 m
        else .done ⟨pcAfter, 0, 0⟩ (m.wrote d (BitVec.ofInt 32 z)) := by
  obtain ⟨hrs, hrt, hrd⟩ := decode_fields word
  simp only [exactCodes, List.mem_cons, List.not_mem_nil, or_false] at hop
  rcases hop with hc | hc | hc
  · obtain ⟨hop, hfunct, -⟩ := decode_special hc (by decide) (by decide)
    simp only [specialTable_numbers] at hfunct
    simp only [exact, hop, hfunct]
    refine ⟨_, _, rfl, fun pcAfter => ?_⟩
    simp only [execute, hc, hrs, hrt, hrd]
    apply overflow_apply
    · rw [← Word.add_overflow_iff]
      exact and_congr Word.xor_sign_eq_zero (xor_sign_ne_zero _ _)
    · exact Word.add_eq_ofInt _ _
  · obtain ⟨hop, hextra⟩ := decode_immediate hc (by decide)
    have himm : (immediate word).toInt = ((immediate word).signExtend 32).toInt :=
      (BitVec.toInt_signExtend_of_le (by decide)).symm
    simp only [opTable_numbers] at hop
    simp only [exact, hop, himm]
    refine ⟨_, _, rfl, fun pcAfter => ?_⟩
    simp only [execute, hc, hrs, hrt, hextra]
    apply overflow_apply
    · have hsame : ∀ a b c : Bool, (a = b ∧ b ≠ c) ↔ (a = b ∧ a ≠ c) := by decide
      rw [← Word.add_overflow_iff]
      exact (and_congr Word.xor_sign_eq_zero (xor_sign_ne_zero _ _)).trans (hsame _ _ _)
    · exact Word.add_eq_ofInt _ _
  · obtain ⟨hop, hfunct, -⟩ := decode_special hc (by decide) (by decide)
    simp only [specialTable_numbers] at hfunct
    simp only [exact, hop, hfunct]
    refine ⟨_, _, rfl, fun pcAfter => ?_⟩
    simp only [execute, hc, hrs, hrt, hrd]
    apply overflow_apply
    · rw [← Word.sub_overflow_iff]
      exact and_congr (xor_sign_ne_zero _ _) (xor_sign_ne_zero _ _)
    · exact Word.sub_eq_ofInt _ _

theorem gpr_not_special (hi : i ≠ 0) :
    gpr i ∉ ([0, LoadReg, LoadValueReg, BadVAddrReg] : List (Fin NumTotalRegs)) := by
  simp only [List.mem_cons, List.not_mem_nil, or_false, not_or]
  exact ⟨gpr_ne_zero hi, gpr_ne (by decide), gpr_ne (by decide), gpr_ne (by decide)⟩

/-- `ADD`, `ADDI` and `SUB` raise `OverflowException` exactly if no word is the sum or difference of
their operands. Otherwise it is in the register of the result, unless that is `r0` or the one that a
load under way is for. An exception finds the registers as they were, but for that load. -/
theorem exact_arithmetic (hfetch : Fetches m word) (hm : m.registers.Valid)
    (hop : (decode word).opCode ∈ exactCodes) :
    ∃ d z, exact word m.general = some (d, z) ∧
      ((∃ m', oneInstruction debug m = .trapped .OverflowException m') ↔ ¬Fits z) ∧
      (Fits z → (BitVec.ofInt 32 z).toInt = z ∧ ∃ m', oneInstruction debug m = .done () m' ∧
        m'.registers 0 = 0 ∧ ∀ i ≠ 0, m'.general i =
          if (m.registers LoadReg).toNat = i then m.registers LoadValueReg
          else Function.update m.general d (BitVec.ofInt 32 z) i) ∧
      (¬Fits z → ∃ m', oneInstruction debug m = .trapped .OverflowException m' ∧
        m'.registers 0 = 0 ∧ ∀ i ≠ 0, m'.general i =
          if (m.registers LoadReg).toNat = i then m.registers LoadValueReg else m.general i) := by
  obtain ⟨m₁, hfetch⟩ := hfetch
  have hload := loadRegValid_of_valid hm
  obtain ⟨d, z, hexact, hexec⟩ := exact_execute m₁ hop
  rw [general_of_fetch hfetch] at hexact
  have hdone : Fits z → ∃ m', oneInstruction debug m = .done () m' ∧
      m'.registers 0 = 0 ∧ ∀ i ≠ 0, m'.general i =
        if (m.registers LoadReg).toNat = i then m.registers LoadValueReg
        else Function.update m.general d (BitVec.ofInt 32 z) i := by
    intro hz
    have hw : Writes m₁ word d (BitVec.ofInt 32 z) := by
      intro pcAfter
      rw [hexec, if_neg (not_not.mpr hz)]
    exact hw.result debug hfetch hload
  have htrapped : ¬Fits z → ∃ m', oneInstruction debug m = .trapped .OverflowException m' := by
    intro hz
    have hload₁ : (m₁.registers LoadReg).toNat < NumTotalRegs := by
      rw [readMem_registers hfetch]
      exact hload
    have hfetched : fetchExecute debug m =
        .trapped .OverflowException { m₁ with registers := m₁.trapRegisters 0 } := by
      rw [fetchExecute_of_done debug hfetch, hexec, if_pos hz, raiseException_apply, if_pos hload₁]
    exact ⟨_, TrapM.bind_of_trapped hfetched⟩
  refine ⟨d, z, hexact, ⟨?_, htrapped⟩, fun hz => ⟨Word.toInt_ofInt_of_fits hz, hdone hz⟩,
    fun hz => ?_⟩
  · rintro ⟨m', htrap⟩ hz
    obtain ⟨m'', hrun, -⟩ := hdone hz
    rw [htrap] at hrun
    cases hrun
  · obtain ⟨m', htrap⟩ := htrapped hz
    have hp : m.Precise m.faultAddress m' := faults_oneInstruction debug m _ m' htrap
    refine ⟨m', htrap, ?_, fun i hi => hp.apply (gpr_not_special hi)⟩
    rw [hp.registers]
    exact delayedLoad_zero

/-- `SUB r3,r0,r2` of the smallest `int`. -/
theorem exact_arithmetic_sub : ∃ m', oneInstruction false (operand 0x00021822 SIGN_BIT) =
    .trapped .OverflowException m' := by
  have hfetch : Fetches (operand 0x00021822 SIGN_BIT) 0x00021822 := ⟨_, rfl⟩
  obtain ⟨d, z, hexact, htrap, -⟩ : ∃ d z, _ = some (d, z) ∧
      ((∃ m', oneInstruction false _ = .trapped _ m') ↔ _) ∧ _ :=
    exact_arithmetic hfetch (by decide) (by decide)
  cases hexact
  exact htrap.mpr (by decide)

/-- A machine that is to execute `word` with `1` in `r2`, while `7` is being loaded into `r3`. -/
def loading (word : BitVec 32) : Machine :=
  sample word fun i =>
    if i = 2 then 1 else if i = LoadReg then 3 else if i = LoadValueReg then 7 else 0

/-- `ADD r3,r2,r2` with a load into `r3` under way, and `ADD r0,r2,r2`: the sum is not in the
register of the result. -/
theorem exact_arithmetic_loading :
    (Fetches (loading 0x00421820) 0x00421820 ∧ (loading 0x00421820).registers.Valid ∧
      exact 0x00421820 (loading 0x00421820).general = some (3, 2) ∧
      ∃ m', oneInstruction false (loading 0x00421820) = .done () m' ∧ m'.general 3 = 7) ∧
    Fetches (loading 0x00420020) 0x00420020 ∧ (loading 0x00420020).registers.Valid ∧
      exact 0x00420020 (loading 0x00420020).general = some (0, 2) ∧
      ∃ m', oneInstruction false (loading 0x00420020) = .done () m' ∧ m'.general 0 = 0 :=
  ⟨⟨⟨_, rfl⟩, by decide, rfl, _, rfl, by decide⟩, ⟨_, rfl⟩, by decide, rfl, _, rfl, by decide⟩

end Nachos.Mips.Machine
