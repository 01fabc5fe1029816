import Nachos.Userprog.UserCopy

/-!
# File names

`CreateFile`, `Open` and `Exec` copy the name of a file to the kernel, each up to a limit of
its own.
-/
namespace Nachos

open Bytes (Byte)

/-- A string of the program: its characters, none of them zero, and a zero behind them. -/
structure UserMemory.HasString (u : UserMemory) (addr : BitVec 32) (str : List Byte) : Prop where
  chars : ∀ i, ∀ hi : i < str.length, u.char? (addr + BitVec.ofNat 32 i) = some str[i]
  nonzero : (0 : Byte) ∉ str
  terminated : u.char? (addr + BitVec.ofNat 32 str.length) = some 0

namespace UserMemory

variable {u : UserMemory} {addr : BitVec 32} {str : List Byte} {i : ℕ}

/-- `User2System` finds the string, or as much of it as the limit allows. -/
theorem HasString.copied (h : u.HasString addr str) (n : ℕ) (hi : i ≤ str.length) :
    ∃ bs, u.copied addr i n = some bs ∧ Services.cString bs = (str.drop i).take n := by
  induction n generalizing i with
  | zero => exact ⟨[], rfl, rfl⟩
  | succ n ih =>
    rcases Nat.eq_or_lt_of_le hi with rfl | hlt
    · refine ⟨[0], ?_, ?_⟩
      · simp [UserMemory.copied, h.terminated]
      · rw [List.drop_length, List.take_nil]
        rfl
    · obtain ⟨bs, hbs, hstr⟩ := ih (i := i + 1) hlt
      have hne : str[i] ≠ 0 := fun hz => h.nonzero (hz ▸ List.getElem_mem hlt)
      refine ⟨str[i] :: bs, ?_, ?_⟩
      · simp only [UserMemory.copied, h.chars i hlt, hbs, bind, Option.bind_some, if_neg hne]
      · rw [List.drop_eq_getElem_cons hlt, List.take_succ_cons, ← hstr, Services.cString,
          List.takeWhile_cons_of_pos (by simpa using hne)]
        rfl

/-- A program that has `str` at address `0`, in pages of its own. -/
def ofString (str : List Byte) : UserMemory where
  mainMemory := Bytes.store (fun _ => 0) 0 str
  pageTable p := ⟨p, p, true, false, false, false⟩
  pageTableSize := 4

theorem ofString_char (str : List Byte) (hi : i < 2048) :
    (ofString str).char? (0 + BitVec.ofNat 32 i) = some (str.getD i 0) := by
  have hnat : (0 + BitVec.ofNat 32 i).toNat = i := by
    rw [show (0 : BitVec 32) = 0#32 from rfl, BitVec.zero_add, Word.toNat_ofNat (by omega)]
  have hmapped : (ofString str).Mapped (0 + BitVec.ofNat 32 i) false := by
    have hsize : (ofString str).pageTableSize.toNat = 4 := rfl
    refine ⟨?_, rfl, fun _ => rfl, Int.natCast_nonneg _, ?_⟩
    · rw [hsize, hnat, PageSize]
      omega
    · simp only [ofString, hnat, PageSize, NumPhysPages]
      omega
  have hplace : (ofString str).place (0 + BitVec.ofNat 32 i) = i := by
    simp only [place, ofString, hnat, PageSize]
    omega
  rw [hmapped.char?, byte, hplace]
  show some (Bytes.store (fun _ => 0) 0 str i) = _
  by_cases hlt : i < str.length
  · rw [Bytes.store_of_mem (by omega) (by omega)]
    simp
  · rw [Bytes.store_of_not_mem (by omega), List.getD_eq_default _ _ (by omega)]

theorem hasString_ofString (str : List Byte) (hz : (0 : Byte) ∉ str) (hlen : str.length < 2048) :
    (ofString str).HasString 0 str := by
  refine ⟨fun i hi => ?_, hz, ?_⟩
  · rw [ofString_char str (by omega), List.getD_eq_getElem _ _ hi]
  · rw [ofString_char str hlen, List.getD_eq_default _ _ le_rfl]

end UserMemory

namespace Services

open Command Handler
open HasMemory
open UserMemory (Touched)

/-- Zeros behind a string are not part of it. -/
theorem cString_append_zeros (bs : List Byte) (n : ℕ) :
    cString (bs ++ List.replicate n 0) = cString bs := by
  induction bs with
  | nil => cases n <;> simp [cString, List.replicate_succ]
  | cons b bs ih =>
    simp only [cString, List.cons_append, List.takeWhile_cons] at ih ⊢
    rw [ih]

/-- The name that the kernel gets of a string. -/
theorem user2System_string {S : Type} [HasMemory S] {k : Services S} (hk : k.ReadsMemory)
    {s : S} (r : Registers) {addr : BitVec 32} {str : List Byte} (limit : BitVec 32)
    (hstr : (memory s).HasString addr str) (hl : limit.toNat < 2 ^ 31 - 1) :
    ∃ buffer u, k.user2System addr limit (r, s) = some (buffer, r, setMemory s u) ∧
      cString buffer = str.take limit.toNat ∧ Touched (memory s) u := by
  have hint : limit.toInt.toNat = limit.toNat := by
    rw [Word.toInt_of_lt (by omega), Int.toNat_natCast]
  have hpos : 0 ≤ (limit + 1).toInt := by
    rw [Word.toInt_of_lt (by rw [Word.toNat_succ (by omega)]; omega)]
    omega
  obtain ⟨bs, hbs, hname⟩ := hstr.copied limit.toNat (Nat.zero_le _)
  rw [← hint] at hbs
  obtain ⟨u, hrun, ht⟩ := user2System_of_some hk (r := r) hpos hbs
  exact ⟨_, u, hrun, by rw [cString_append_zeros, hname, List.drop_zero], ht⟩

/-! ## The handlers, from the name on -/

section

variable {S : Type} (k : Services S)

def createNamed (name : List Byte) : Handler S Unit := do
  failIf (name = [])
  let created ← onSecond (k.create name)
  failIf (created = false)
  writeRegister 2 0

def openNamed (type : BitVec 32) (name : List Byte) : Handler S Unit := do
  let freeSlot ← onSecond k.findFreeSlot
  if freeSlot ≠ -1 then
    if type = 0 ∨ type = 1 then do
      let opened ← onSecond (k.openInto freeSlot name type)
      if opened then writeRegister 2 freeSlot else pure ()
    else if type = 2 then writeRegister 2 0
    else writeRegister 2 1
  else writeRegister 2 (-1)

def execNamed (name : List Byte) : Handler S Unit := do
  let opened ← onSecond (k.canOpen name)
  if opened then do
    let id ← onSecond (k.execUpdate name)
    writeRegister 2 id
  else writeRegister 2 (-1)

variable {k} in
/-- `CreateFile` comes back with `0`, whatever `Create` says. -/
theorem createNamed_of_some {name : List Byte} {created : Bool} {r : Registers} {s s' : S}
    (h : k.create name s = some (created, s')) :
    ∃ r', k.createNamed name (r, s) = some ((), r', s') ∧ r' 2 = 0 := by
  rw [createNamed, bind_of_some (failIf_apply _ _), bind_of_some (onSecond_of_some h),
    bind_of_some (failIf_apply _ _)]
  exact ⟨_, rfl, Function.update_self _ _ _⟩

variable {k} in
theorem createNamed_of_none {name : List Byte} {r : Registers} {s : S}
    (h : k.create name s = none) : k.createNamed name (r, s) = none := by
  rw [createNamed, bind_of_some (failIf_apply _ _)]
  exact bind_of_none (onSecond_of_none h)

variable {k} in
/-- `Open` for reading, or for reading and writing: the result is not set when no file is
opened. -/
theorem openNamed_of_slot {type slot : BitVec 32} {name : List Byte} {opened : Bool}
    {r : Registers} {s s₁ s₂ : S} (htype : type = 0 ∨ type = 1)
    (hslot : k.findFreeSlot s = some (slot, s₁)) (hne : slot ≠ -1)
    (hopen : k.openInto slot name type s₁ = some (opened, s₂)) :
    k.openNamed type name (r, s) =
      some ((), if opened then r.writeRegister 2 slot else r, s₂) := by
  rw [openNamed, bind_of_some (onSecond_of_some hslot), if_pos hne, if_pos htype,
    bind_of_some (onSecond_of_some hopen)]
  cases opened <;> rfl

variable {k} in
theorem openNamed_of_full (type : BitVec 32) (name : List Byte) (r : Registers) {s s₁ : S}
    (hslot : k.findFreeSlot s = some (-1, s₁)) :
    k.openNamed type name (r, s) = some ((), r.writeRegister 2 (-1), s₁) := by
  rw [openNamed, bind_of_some (onSecond_of_some hslot), if_neg (not_not.mpr rfl)]
  rfl

variable {k} [HasMemory S] (hk : k.ReadsMemory) {s : S} {r : Registers} {str : List Byte}
  (hstr : (memory s).HasString (r 4) str)

include hk hstr

theorem exceptionCreateFile_string : ∃ u, Touched (memory s) u ∧
    k.exceptionCreateFile (r, s) = k.createNamed (str.take 33) (r, setMemory s u) := by
  obtain ⟨buffer, u, hrun, hname, ht⟩ := user2System_string hk r 33 hstr (by decide)
  refine ⟨u, ht, ?_⟩
  rw [exceptionCreateFile, bind_of_some (readRegister_apply 4 (r, s)), bind_of_some hrun, hname]
  rfl

theorem exceptionOpen_string : ∃ u, Touched (memory s) u ∧
    k.exceptionOpen (r, s) = k.openNamed (r 5) (str.take 32) (r, setMemory s u) := by
  obtain ⟨buffer, u, hrun, hname, ht⟩ := user2System_string hk r 32 hstr (by decide)
  refine ⟨u, ht, ?_⟩
  rw [exceptionOpen, bind_of_some (readRegister_apply 4 (r, s)),
    bind_of_some (readRegister_apply 5 (r, s)), bind_of_some hrun, hname]
  rfl

theorem exceptionExec_string : ∃ u, Touched (memory s) u ∧
    k.exceptionExec (r, s) = k.execNamed (str.take 33) (r, setMemory s u) := by
  obtain ⟨buffer, u, hrun, hname, ht⟩ := user2System_string hk r 33 hstr (by decide)
  refine ⟨u, ht, ?_⟩
  rw [exceptionExec, bind_of_some (readRegister_apply 4 (r, s)), bind_of_some hrun, hname]
  rfl

end

end Services

/-- A kernel that only keeps the names it is given, in the order of the calls. -/
structure Recorder where
  memory : UserMemory
  passed : List (List Byte)

namespace Recorder

open Command (stop)

instance : HasMemory Recorder where
  memory s := s.memory
  setMemory s u := { s with memory := u }
  memory_setMemory _ _ := rfl
  setMemory_setMemory _ _ _ := rfl
  setMemory_memory _ := rfl

/-- The answer to a call with a name. -/
def note {α : Type} (name : List Byte) (answer : α) : Command Recorder α := fun s =>
  some (answer, { s with passed := s.passed ++ [name] })

def readMem (addr : BitVec 32) : Command Recorder (BitVec 32) := fun s =>
  match s.memory.readByte addr with
  | .ok (value, memory) => some (value, { s with memory })
  | .error _ => none

/-- The rest of the kernel answers as it likes. -/
structure Answers where
  created : Bool
  freeSlot : BitVec 32
  opened : Bool
  id : BitVec 32

def services (a : Answers) : Services Recorder :=
  { Services.silent with
    readMem := readMem
    create := fun name => note name a.created
    findFreeSlot := pure a.freeSlot
    openInto := fun _ name _ => note name a.opened
    canOpen := fun name => note name a.opened
    execUpdate := fun name => note name a.id }

/-- The handler passes this name on, and no other. -/
def Passes (handler : Handler Recorder Unit) (r : Registers) (u : UserMemory) (name : List Byte) :
    Prop :=
  ∃ r' s, handler (r, ⟨u, []⟩) = some ((), r', s) ∧ s.passed ≠ [] ∧ ∀ n ∈ s.passed, n = name

variable {a : Answers} {r : Registers} {u : UserMemory} {str name : List Byte}

theorem readsMemory : (services a).ReadsMemory := fun _ _ => rfl

/-- What is passed on is the same in every run of the handler. -/
theorem passes_iff {handler : Handler Recorder Unit} {r' : Registers} {s : Recorder}
    {name' : List Byte} (h : handler (r, ⟨u, []⟩) = some ((), r', s))
    (hs : s.passed = [name'] ∨ s.passed = [name', name']) :
    Passes handler r u name ↔ name = name' := by
  have hmem : name' ∈ s.passed := by rcases hs with hs | hs <;> simp [hs]
  constructor
  · rintro ⟨r'', s', h', -, hall⟩
    rw [h] at h'
    cases h'
    exact (hall name' hmem).symm
  · rintro rfl
    refine ⟨r', s, h, List.ne_nil_of_mem hmem, fun n hn => ?_⟩
    rcases hs with hs | hs <;> simpa [hs] using hn

/-- `CreateFile` takes 33 characters of a name. -/
theorem passes_createFile (hstr : u.HasString (r 4) str) :
    Passes (services a).exceptionCreateFile r u name ↔ name = str.take 33 := by
  obtain ⟨u', -, hrun⟩ := Services.exceptionCreateFile_string (readsMemory (a := a))
    (s := ⟨u, []⟩) (r := r) hstr
  have hsome : (services a).create (str.take 33) ⟨u', []⟩ =
      some (a.created, ⟨u', [str.take 33]⟩) := rfl
  obtain ⟨r', hcreate, -⟩ := Services.createNamed_of_some (r := r) hsome
  exact passes_iff (hrun.trans hcreate) (.inl rfl)

/-- `Open` takes 32, if it opens a file at all. -/
theorem passes_open (hstr : u.HasString (r 4) str) (htype : r 5 = 0 ∨ r 5 = 1)
    (hslot : a.freeSlot ≠ -1) :
    Passes (services a).exceptionOpen r u name ↔ name = str.take 32 := by
  obtain ⟨u', -, hrun⟩ := Services.exceptionOpen_string (readsMemory (a := a))
    (s := ⟨u, []⟩) (r := r) hstr
  have hsome : (services a).openInto a.freeSlot (str.take 32) (r 5) ⟨u', []⟩ =
      some (a.opened, ⟨u', [str.take 32]⟩) := rfl
  have hopen := Services.openNamed_of_slot (r := r) (s := ⟨u', []⟩) htype rfl hslot hsome
  exact passes_iff (hrun.trans hopen) (.inl rfl)

/-- `Exec` takes 33 again, for its own `Open` and for `ExecUpdate`. -/
theorem passes_exec (hstr : u.HasString (r 4) str) :
    Passes (services a).exceptionExec r u name ↔ name = str.take 33 := by
  obtain ⟨u', -, hrun⟩ := Services.exceptionExec_string (readsMemory (a := a))
    (s := ⟨u, []⟩) (r := r) hstr
  cases hopened : a.opened with
  | false =>
    have hexec : (services a).execNamed (str.take 33) (r, ⟨u', []⟩) =
        some ((), r.writeRegister 2 (-1), ⟨u', [str.take 33]⟩) := by
      rw [Services.execNamed, Command.bind_of_some (Command.onSecond_of_some rfl), hopened]
      rfl
    exact passes_iff (hrun.trans hexec) (.inl rfl)
  | true =>
    have hexec : (services a).execNamed (str.take 33) (r, ⟨u', []⟩) =
        some ((), r.writeRegister 2 a.id, ⟨u', [str.take 33, str.take 33]⟩) := by
      rw [Services.execNamed, Command.bind_of_some (Command.onSecond_of_some rfl), hopened]
      rfl
    exact passes_iff (hrun.trans hexec) (.inr rfl)

/-- The three calls with the same string hand the same name to the file system. -/
def NamesAgree (a : Answers) (r : Registers) (u : UserMemory) : Prop :=
  ∃ name, Passes (services a).exceptionCreateFile r u name ∧
    Passes (services a).exceptionOpen r u name ∧ Passes (services a).exceptionExec r u name

end Recorder

open Recorder

/-- `CreateFile`, `Open` and `Exec` agree on the name of a file exactly if it has at most 32
characters. -/
theorem names_agree_iff (a : Answers) (r : Registers) (u : UserMemory) (str : List Byte)
    (hstr : u.HasString (r 4) str) (htype : r 5 = 0 ∨ r 5 = 1) (hslot : a.freeSlot ≠ -1) :
    NamesAgree a r u ↔ str.length ≤ 32 := by
  simp only [NamesAgree, passes_createFile hstr, passes_open hstr htype hslot, passes_exec hstr]
  constructor
  · rintro ⟨name, rfl, h, -⟩
    have := congrArg List.length h
    simp only [List.length_take] at this
    omega
  · intro hle
    exact ⟨str, (List.take_of_length_le (by omega)).symm, (List.take_of_length_le hle).symm,
      (List.take_of_length_le (by omega)).symm⟩

/-- Everything succeeds. -/
def allWell : Answers := ⟨true, 2, true, 1⟩

theorem names_agree_short : (UserMemory.ofString [97]).HasString 0 [97] ∧
    NamesAgree allWell (callRegisters 4 0 0 0) (UserMemory.ofString [97]) := by
  have hstr := UserMemory.hasString_ofString [97] (by decide) (by decide)
  exact ⟨hstr, (names_agree_iff allWell (callRegisters 4 0 0 0) _ [97] hstr (.inl rfl)
    (by decide)).mpr (by decide)⟩

/-- `Open` drops the last of 33 characters. -/
theorem names_disagree :
    (UserMemory.ofString (List.replicate 33 97)).HasString 0 (List.replicate 33 97) ∧
    ¬NamesAgree allWell (callRegisters 4 0 0 0) (UserMemory.ofString (List.replicate 33 97)) := by
  have hstr := UserMemory.hasString_ofString (List.replicate 33 97) (by decide) (by decide)
  refine ⟨hstr, ?_⟩
  rintro ⟨name, hcreate, hopen, -⟩
  rw [passes_createFile (r := callRegisters 4 0 0 0) hstr] at hcreate
  rw [passes_open (r := callRegisters 4 0 0 0) hstr (.inl rfl) (by decide), hcreate] at hopen
  revert hopen
  decide

end Nachos
