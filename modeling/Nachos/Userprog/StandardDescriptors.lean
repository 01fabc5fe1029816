import Nachos.Filesys.OpenTable
import Nachos.Userprog.FileNames

/-!
# The descriptors of the console

`Open` and `Close` of user programs on the table of open files of the `FILESYS` build. The slots
`0` and `1` are filled once, by the constructor.
-/
namespace Nachos

open Bytes (Byte)
open Command Filesys

/-- What `Exception_Open` and `Exception_Close` work on. -/
structure TableKernel where
  memory : UserMemory
  table : FileTable

namespace TableKernel

def readMem (addr : BitVec 32) : Command TableKernel (BitVec 32) := fun s =>
  match s.memory.readByte addr with
  | .ok (value, memory) => some (value, { s with memory })
  | .error _ => none

/-- A command of the file system. -/
def onTable {α : Type} (c : Command FileTable α) : Command TableKernel α := fun s =>
  (c s.table).map fun r => (r.1, { s with table := r.2 })

def findFreeSlot : Command TableKernel (BitVec 32) := do
  let freeSlot ← onTable FileTable.findFreeSlot
  pure (BitVec.ofInt 32 freeSlot)

/-- `openf[slot] = fileSystem->Open(name, type)`. -/
def openInto (slot : BitVec 32) (name : List Byte) (type : BitVec 32) : Command TableKernel Bool := do
  let p ← onTable (FileTable.openTyped name type)
  onTable (FileTable.store slot.toInt p)
  pure p.isSome

/-- The type of `openf[id]`, which is zero here if it was never set. -/
def openf (id : BitVec 32) : Command TableKernel (Option (BitVec 32)) := fun s =>
  some ((s.table.openf id.toInt).map fun a => ((s.table.objects a).bind (·.type)).getD 0, s)

/-- `delete openf[id]`. The pointer stays, and a second `delete` of it has no meaning. -/
def close (id : BitVec 32) : Command TableKernel Unit := fun s =>
  match s.table.openf id.toInt with
  | none => none
  | some a =>
    if (s.table.objects a).isSome then
      some ((), { s with
        table := { s.table with objects := Function.update s.table.objects a none } })
    else none

def services : Services TableKernel :=
  { Services.silent with
    readMem := readMem
    findFreeSlot := findFreeSlot
    openInto := openInto
    openf := openf
    close := close }

/-- `Open` and `Close`. -/
def IsCall (r : Registers) : Prop := r 2 = 5 ∨ r 2 = 8

/-- System calls one after the other, each with the registers and the memory of the program that
makes it. -/
def runCalls : List (Registers × UserMemory) → FileTable → Option FileTable
  | [], t => some t
  | (r, memory) :: cs, t =>
    match services.exceptionHandler 0 .SyscallException (r, ⟨memory, t⟩) with
    | none => none
    | some (_, _, s) => runCalls cs s.table

end TableKernel

namespace Filesys.FileTable

variable {t t' : FileTable} {name : List Byte} {type : BitVec 32} {i : ℕ} {p : Option ℕ}

/-- `openf[i]` is an `OpenFile` of this type. -/
def HasType (t : FileTable) (i : Int) (type : BitVec 32) : Prop :=
  ∃ a f, t.openf i = some a ∧ t.objects a = some f ∧ f.type = some type

/-- The descriptors of the console are in place, and no object is in two slots. -/
structure Standard (t : FileTable) : Prop where
  stdin : t.HasType 0 2
  stdout : t.HasType 1 3
  distinct : ∀ i j : Int, 0 ≤ i → i < 15 → 0 ≤ j → j < 15 → i ≠ j →
    ∀ a, t.openf i = some a → t.openf j ≠ some a

/-- Slot `0` is null, or slot `2` has the same object. -/
def Broken (t : FileTable) : Prop :=
  t.openf 0 = none ∨ ∃ a, t.openf 0 = some a ∧ t.openf 2 = some a

theorem Broken.not_standard (h : t.Broken) : ¬t.Standard := by
  intro hs
  rcases h with hnull | ⟨a, h0, h2⟩
  · obtain ⟨a, f, ha, -⟩ := hs.stdin
    rw [hnull] at ha
    cases ha
  · exact hs.distinct 0 2 le_rfl (by decide) (by decide) (by decide) (by decide) a h0 h2

/-- Only a slot that was free, and not one of the console, may have changed. -/
def Grows (t t' : FileTable) : Prop :=
  ∃ i : Int, i ≠ 0 ∧ t.openf i = none ∧ ∀ j, j ≠ i → t'.openf j = t.openf j

theorem Broken.of_grows (h : t.Broken) (hg : t.Grows t') : t'.Broken := by
  obtain ⟨i, h0, hfree, hsame⟩ := hg
  rw [Broken, hsame 0 h0.symm]
  refine h.imp_right ?_
  rintro ⟨a, ha, h2⟩
  refine ⟨a, ha, ?_⟩
  rw [hsame 2, h2]
  rintro rfl
  simp [hfree] at h2

theorem Broken.of_openf (h : t.Broken) (hopenf : t'.openf = t.openf) : t'.Broken := by
  rwa [Broken, hopenf]

theorem free_of_some (h : t.freeSlot? = some i) : 2 ≤ i ∧ i ≤ 14 ∧ t.openf i = none := by
  have hmem := List.mem_of_find?_eq_some h
  have hfree := List.find?_some h
  rw [List.mem_range'_1] at hmem
  exact ⟨hmem.1, by omega, by simpa using hfree⟩

/-- The pointer that `Open(name, type)` returns is the one in the slot it has found. -/
theorem openTyped_slot (hi : t.freeSlot? = some i) (hrun : openTyped name type t = some (p, t')) :
    p = t'.openf i ∧ t'.index = t.index ∧ ∀ j, j ≠ (i : Int) → t'.openf j = t.openf j := by
  obtain ⟨slot, t₁, hslot, hrun⟩ := bind_eq_some.mp hrun
  obtain ⟨o, t₂, hfind, hrun⟩ := bind_eq_some.mp hrun
  obtain ⟨⟨⟩, t₃, hnew, hread⟩ := bind_eq_some.mp hrun
  simp only [findFreeSlot, hi, Option.some.injEq, Prod.mk.injEq] at hslot
  obtain ⟨rfl, rfl⟩ := hslot
  obtain ⟨-, rfl⟩ := find_eq_some_iff.mp hfind
  cases hread
  cases o with
  | none =>
    cases hnew
    exact ⟨rfl, rfl, fun _ _ => rfl⟩
  | some hdr =>
    obtain ⟨a, t₄, hobject, hstore⟩ := bind_eq_some.mp hnew
    cases hobject
    cases hstore
    exact ⟨rfl, rfl, fun j hj => Function.update_of_ne hj _ _⟩

/-- While a slot is free, the constructor puts what it opens into a slot of the console too. -/
theorem openNext_slot (hi : t.freeSlot? = some i) (hindex : t.index < 2)
    (hrun : openNext name type t = some ((), t')) : t'.index = t.index + 1 ∧
      t'.openf t.index = t'.openf i ∧
      ∀ j, j ≠ t.index → j ≠ (i : Int) → t'.openf j = t.openf j := by
  obtain ⟨q, t₁, hopen, hstore⟩ := bind_eq_some.mp hrun
  obtain ⟨rfl, hindex₁, hsame⟩ := openTyped_slot hi hopen
  have hi2 := (free_of_some hi).1
  cases hstore
  refine ⟨by simp [hindex₁], ?_, ?_⟩
  · simp only [hindex₁]
    rw [Function.update_self, Function.update_of_ne (by omega)]
  · intro j hj hji
    simp only [hindex₁]
    rw [Function.update_of_ne hj]
    exact hsame j hji

theorem freeSlot_two (h : t.openf 2 = none) : t.freeSlot? = some 2 := by
  rw [freeSlot?, List.range'_succ, List.find?_cons]
  simp [h]

theorem exists_freeSlot (h2 : 2 ≤ i) (h14 : i ≤ 14) (hi : t.openf i = none) :
    ∃ k, t.freeSlot? = some k := by
  rw [← Option.isSome_iff_exists, freeSlot?, List.find?_isSome]
  exact ⟨i, List.mem_range'_1.mpr (by omega), by simp [hi]⟩

/-- Whatever is on the disk, the slots of the console are not in order after the constructor. -/
theorem broken_start {m : Initial} (hrun : m.start = some t) : t.Broken := by
  rw [Initial.start] at hrun
  split at hrun
  · cases hrun
  rename_i fs disk hfiles
  obtain ⟨⟨⟨⟩, t₅⟩, hsetUp, rfl⟩ := Option.map_eq_some_iff.mp hrun
  obtain ⟨⟨⟩, t₁, hstdin, hsetUp⟩ := bind_eq_some.mp hsetUp
  obtain ⟨⟨⟩, t₂, hstdout, hsetUp⟩ := bind_eq_some.mp hsetUp
  obtain ⟨ok, t₃, hcreate, hsetUp⟩ := bind_eq_some.mp hsetUp
  obtain ⟨ok', t₄, hcreate', heq⟩ := bind_eq_some.mp hsetUp
  cases heq
  have hopenf : t₅.openf = t₂.openf := by
    obtain ⟨r, -, heq⟩ := Option.map_eq_some_iff.mp hcreate
    cases heq
    obtain ⟨r', -, heq⟩ := Option.map_eq_some_iff.mp hcreate'
    cases heq
    rfl
  have hempty : ∀ i : Int, 0 ≤ i → i < 15 → (empty fs disk m.beside).openf i = none :=
    fun i h0 h15 => if_pos ⟨h0, h15⟩
  have hzero : (empty fs disk m.beside).index = 0 := rfl
  -- `stdin` goes into the slots `0` and `2`
  obtain ⟨hindex₁, hboth, hsame₁⟩ := openNext_slot (freeSlot_two (hempty 2 (by decide) (by decide)))
    (by omega) hstdin
  rw [hzero] at hindex₁ hboth hsame₁
  have hthree : t₁.openf 3 = none :=
    (hsame₁ 3 (by decide) (by decide)).trans (hempty 3 (by decide) (by decide))
  obtain ⟨k, hk⟩ := exists_freeSlot (t := t₁) (i := 3) (by decide) (by decide) hthree
  obtain ⟨hk2, hk14, hfree⟩ := free_of_some hk
  obtain ⟨-, -, hsame₂⟩ := openNext_slot hk (by omega) hstdout
  have hzero₂ : t₂.openf 0 = t₁.openf 0 := hsame₂ 0 (by omega) (by omega)
  rw [Broken, hopenf, hzero₂]
  cases h0 : t₁.openf 0 with
  | none => exact .inl rfl
  | some a =>
    have h2 : t₁.openf 2 = some a := hboth.symm.trans h0
    refine .inr ⟨a, rfl, ?_⟩
    rw [hsame₂ 2 (by omega), h2]
    rintro hk2
    rw [← hk2] at hfree
    rw [h2] at hfree
    cases hfree

end Filesys.FileTable

namespace TableKernel

variable {s s' : TableKernel} {r r' : Registers} {t t' : FileTable} {i : ℕ}

/-! ## The system calls -/

/-- The table is as it was. -/
def TableSame (s s' : Registers × TableKernel) : Prop := s'.2.table = s.2.table

instance : Std.Refl TableSame := ⟨fun _ => rfl⟩

instance : IsTrans (Registers × TableKernel) TableSame := ⟨fun _ _ _ h h' => h'.trans h⟩

instance (addr : BitVec 32) : Keeps TableSame (onSecond (services.readMem addr)) := ⟨by
  intro s c s' h
  obtain ⟨⟨c', k⟩, hread, heq⟩ := Option.map_eq_some_iff.mp h
  cases heq
  simp only [services, readMem] at hread
  split at hread <;> cases hread
  rfl⟩

instance (virtAddr : BitVec 32) (i n : ℕ) : Keeps TableSame (services.copyIn virtAddr i n) := by
  induction n generalizing i with
  | zero => unfold Services.copyIn; infer_instance
  | succ n ih => unfold Services.copyIn; infer_instance

instance (virtAddr limit : BitVec 32) : Keeps TableSame (services.user2System virtAddr limit) := by
  unfold Services.user2System
  infer_instance

/-- The slot that `Exception_Open` has found is the one that `Open(name, type)` fills. -/
theorem openInto_keeps {slot : BitVec 32} {name : List Byte} {type : BitVec 32} {ok : Bool}
    (hi : s.table.freeSlot? = some i) (hslot : slot.toInt = i)
    (hrun : openInto slot name type s = some (ok, s')) : s.table.Grows s'.table := by
  obtain ⟨p, s₁, hfirst, hrest⟩ := bind_eq_some.mp hrun
  obtain ⟨⟨⟩, s₂, hsecond, heq⟩ := bind_eq_some.mp hrest
  obtain ⟨⟨p', t₁⟩, hopen, heq₁⟩ := Option.map_eq_some_iff.mp hfirst
  obtain ⟨⟨⟨⟩, t₂⟩, hstore, heq₂⟩ := Option.map_eq_some_iff.mp hsecond
  cases heq
  cases heq₁
  cases heq₂
  cases hstore
  obtain ⟨hi2, -, hfree⟩ := FileTable.free_of_some hi
  obtain ⟨-, -, hsame⟩ := FileTable.openTyped_slot hi hopen
  refine ⟨i, by omega, hfree, ?_⟩
  intro j hj
  simp only
  rw [hslot, Function.update_of_ne hj]
  exact hsame j hj

theorem findFreeSlot_apply {s : TableKernel} {n : Int}
    (h : s.table.findFreeSlot = some (n, s.table)) :
    onSecond services.findFreeSlot (r, s) = some (BitVec.ofInt 32 n, r, s) := by
  have htable : onTable FileTable.findFreeSlot s = some (n, s) := by
    rw [onTable, h]
    rfl
  apply onSecond_of_some
  exact bind_of_some htable

theorem open_keeps (hrun : services.exceptionOpen (r, s) = some ((), r', s')) :
    s'.table.openf = s.table.openf ∨ s.table.Grows s'.table := by
  obtain ⟨virtAddr, s₁, hread, hrun⟩ := bind_eq_some.mp hrun
  cases hread
  obtain ⟨type, s₂, hread, hrun⟩ := bind_eq_some.mp hrun
  cases hread
  obtain ⟨filename, s₃, hname, hrun⟩ := bind_eq_some.mp hrun
  have htable : s₃.2.table = s.table := Keeps.keeps (R := TableSame) _ _ _ hname
  -- only one branch opens anything
  cases hi : s₃.2.table.freeSlot? with
  | none =>
    have hslot : s₃.2.table.findFreeSlot = some (-1, s₃.2.table) := by
      rw [FileTable.findFreeSlot, hi]
    rw [bind_of_some (findFreeSlot_apply hslot)] at hrun
    cases hrun
    exact .inl (by rw [htable])
  | some i =>
    have hslot : s₃.2.table.findFreeSlot = some ((i : Int), s₃.2.table) := by
      rw [FileTable.findFreeSlot, hi]
    rw [bind_of_some (findFreeSlot_apply hslot)] at hrun
    have hle := (FileTable.free_of_some hi).2.1
    split at hrun
    · split at hrun
      · obtain ⟨ok, s₅, hinto, hwrite⟩ := bind_eq_some.mp hrun
        obtain ⟨⟨ok', k⟩, hopen, heq⟩ := Option.map_eq_some_iff.mp hinto
        cases heq
        have hs' : s' = k := by
          cases ok' <;> cases hwrite <;> rfl
        have hint : (BitVec.ofInt 32 i).toInt = i := by
          rw [BitVec.ofInt_natCast, Word.toInt_ofNat (by omega)]
        have hgrows := openInto_keeps hi hint hopen
        rw [hs', ← htable]
        exact .inr hgrows
      · split at hrun <;> cases hrun <;> exact .inl (by rw [htable])
    · cases hrun
      exact .inl (by rw [htable])

theorem close_keeps (hrun : services.exceptionClose (r, s) = some ((), r', s')) :
    s'.table.openf = s.table.openf := by
  obtain ⟨fileId, s₁, hread, hrun⟩ := bind_eq_some.mp hrun
  cases hread
  split at hrun
  · obtain ⟨file, s₂, hfile, hrun⟩ := bind_eq_some.mp hrun
    cases hfile
    split at hrun
    · obtain ⟨⟨⟩, s₃, hwrite, hrun⟩ := bind_eq_some.mp hrun
      cases hwrite
      obtain ⟨⟨⟨⟩, k⟩, hclose, heq⟩ := Option.map_eq_some_iff.mp hrun
      cases heq
      simp only [services, close] at hclose
      split at hclose
      · cases hclose
      · split at hclose <;> cases hclose
        rfl
    · cases hrun
      rfl
  · cases hrun
    rfl

theorem broken_call (h : s.table.Broken) (hc : IsCall r)
    (hrun : services.exceptionHandler 0 .SyscallException (r, s) = some ((), r', s')) :
    s'.table.Broken := by
  rcases hc with hopen | hclose
  · have hhandler : services.handlerOf 0 (r 2).toNat = some services.exceptionOpen := by
      rw [hopen]
      rfl
    obtain ⟨r₁, hcall, -⟩ := Services.handler_of_exceptionHandler hhandler hrun
    rcases open_keeps hcall with hsame | hgrows
    · exact h.of_openf hsame
    · exact h.of_grows hgrows
  · have hhandler : services.handlerOf 0 (r 2).toNat = some services.exceptionClose := by
      rw [hclose]
      rfl
    obtain ⟨r₁, hcall, -⟩ := Services.handler_of_exceptionHandler hhandler hrun
    exact h.of_openf (close_keeps hcall)

theorem broken_run (h : t.Broken) {cs : List (Registers × UserMemory)}
    (hcs : ∀ c ∈ cs, IsCall c.1) (hrun : runCalls cs t = some t') : t'.Broken := by
  induction cs generalizing t with
  | nil =>
    cases hrun
    exact h
  | cons c cs ih =>
    rw [runCalls] at hrun
    split at hrun
    · cases hrun
    · rename_i r' s' hcall
      apply ih _ (fun c' hc' => hcs c' (List.mem_cons_of_mem c hc')) hrun
      exact broken_call (s := ⟨c.2, t⟩) h (hcs c List.mem_cons_self) hcall

end TableKernel

/-- The descriptors of the console are never in order, whatever disk the system is started on and
whatever is opened and closed then. -/
theorem standard_never {m : Initial} {t₀ t : FileTable} {cs : List (Registers × UserMemory)}
    (hstart : m.start = some t₀) (hcs : ∀ c ∈ cs, TableKernel.IsCall c.1)
    (hrun : TableKernel.runCalls cs t₀ = some t) : ¬t.Standard :=
  (TableKernel.broken_run (FileTable.broken_start hstart) hcs hrun).not_standard

/-- On a new disk, `Close` of a slot that is null. -/
theorem standard_never_close : ∃ t₀ t, newDisk.start = some t₀ ∧
    TableKernel.runCalls [(callRegisters 8 2 0 0, .ofString [])] t₀ = some t ∧ ¬t.Standard := by
  obtain ⟨t₀, hstart, -, -, hopened⟩ := FileTable.start_format noMemory noMemory noMemory
    (fun _ => sectorOf []) fun _ => none
  have hslot := (FileTable.inv_start hstart).1.slots 0 (by decide)
  rw [hopened] at hslot
  have hnull : t₀.openf 2 = none := hslot.eq_none_iff.mpr rfl
  have hclose : TableKernel.services.exceptionClose (callRegisters 8 2 0 0, ⟨.ofString [], t₀⟩) =
      some ((), (callRegisters 8 2 0 0).writeRegister 2 (-1), ⟨.ofString [], t₀⟩) := by
    have htype : onSecond (TableKernel.services.openf 2)
        (callRegisters 8 2 0 0, (⟨.ofString [], t₀⟩ : TableKernel)) =
        some (none, callRegisters 8 2 0 0, ⟨.ofString [], t₀⟩) := by
      apply onSecond_of_some
      show some (Option.map _ (t₀.openf 2), _) = _
      rw [hnull]
      rfl
    rw [Services.exceptionClose, bind_of_some (Handler.readRegister_apply 4 _)]
    show (if _ then _ else _ : Handler TableKernel Unit) _ = _
    have hin : Services.inTable (callRegisters 8 2 0 0 4) := by decide
    rw [if_pos hin]
    exact bind_of_some htype
  have hhandler : TableKernel.services.handlerOf 0 (callRegisters 8 2 0 0 2).toNat =
      some TableKernel.services.exceptionClose := rfl
  have hrun : TableKernel.runCalls [(callRegisters 8 2 0 0, .ofString [])] t₀ = some t₀ := by
    rw [TableKernel.runCalls, Services.exceptionHandler_of_some hhandler hclose]
    rfl
  have hcalls : ∀ c ∈ [(callRegisters 8 2 0 0, UserMemory.ofString [])],
      TableKernel.IsCall c.1 := List.forall_mem_singleton.mpr (.inr rfl)
  exact ⟨t₀, t₀, hstart, hrun, standard_never hstart hcalls hrun⟩

/-- Right after formatting, slot `0` is null. -/
theorem standard_fails : ∃ t, newDisk.start = some t ∧ ¬t.Standard := by
  obtain ⟨t, hstart, -⟩ := FileTable.start_format noMemory noMemory noMemory
    (fun _ => sectorOf []) fun _ => none
  exact ⟨t, hstart, (FileTable.broken_start hstart).not_standard⟩

end Nachos
