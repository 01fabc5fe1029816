import Nachos.Lib.Command
import Nachos.Userprog.Loader

/-!
# From COFF to NOFF

`coff2noff.c` on an i386 host, where `int` and `long` have 32 bits. Both files are there, `malloc`
has memory, and `exit(1)` is no result.
-/
namespace Nachos.Coff2noff

open Bytes (Byte)
open Command (stop)

def MIPSELMAGIC : ℕ := 0x0162
def OMAGIC : ℕ := 0o407

/-- Characters as bytes. -/
def ascii (s : String) : List Byte := s.toList.map fun c => BitVec.ofNat 8 c.toNat

/-- `struct scnhdr`, as far as it is looked at. -/
structure Scnhdr where
  s_name : List Byte
  s_paddr : BitVec 32
  s_size : BitVec 32
  s_scnptr : BitVec 32

/-- What a section is to become. -/
inductive Kind
  | text
  | data
  | bss
  deriving DecidableEq

namespace Scnhdr

def ofBytes (bs : List Byte) : Scnhdr :=
  ⟨bs.take 8, Bytes.toWord (bs.drop 8), Bytes.toWord (bs.drop 16), Bytes.toWord (bs.drop 20)⟩

/-- `!strcmp(s_name, name)`. -/
def named (s : Scnhdr) (name : String) : Prop := (s.s_name.takeWhile fun b => b ≠ 0) = ascii name

instance (s : Scnhdr) (name : String) : Decidable (s.named name) :=
  inferInstanceAs (Decidable (_ = _))

def kind (s : Scnhdr) : Option Kind :=
  if s.named ".text" then some .text
  else if s.named ".data" ∨ s.named ".rdata" then some .data
  else if s.named ".bss" ∨ s.named ".sbss" then some .bss
  else none

/-- A section of this kind that is not empty. -/
def Is (s : Scnhdr) (k : Kind) : Prop := s.s_size ≠ 0 ∧ s.kind = some k

instance (s : Scnhdr) (k : Kind) : Decidable (s.Is k) := inferInstanceAs (Decidable (_ ∧ _))

theorem Is.not {s : Scnhdr} {k k' : Kind} (h : s.Is k) (hne : k ≠ k') : ¬s.Is k' := by
  rintro ⟨-, h'⟩
  rw [h.2] at h'
  exact hne (Option.some.inj h')

end Scnhdr

/-- The variables of `main`, with the positions of the two files and what has been written. -/
structure Conversion where
  inPos : ℕ
  out : HostFile
  outPos : ℕ
  noffH : NoffHeader
  inNoffFile : BitVec 32

namespace Conversion

/-- The input file at another position. -/
def seek (c : Conversion) (position : ℕ) : Conversion := { c with inPos := position }

@[simp] theorem seek_inPos (c : Conversion) (p : ℕ) : (c.seek p).inPos = p := rfl
@[simp] theorem seek_out (c : Conversion) (p : ℕ) : (c.seek p).out = c.out := rfl
@[simp] theorem seek_outPos (c : Conversion) (p : ℕ) : (c.seek p).outPos = c.outPos := rfl
@[simp] theorem seek_noffH (c : Conversion) (p : ℕ) : (c.seek p).noffH = c.noffH := rfl
@[simp] theorem seek_inNoffFile (c : Conversion) (p : ℕ) :
    (c.seek p).inNoffFile = c.inNoffFile := rfl
@[simp] theorem seek_seek (c : Conversion) (p q : ℕ) : (c.seek p).seek q = c.seek q := rfl

end Conversion

abbrev Code := Command Conversion

/-- `lseek(fdIn, offset, 0)`. A negative offset is refused, which nobody looks at. -/
def lseekIn (offset : BitVec 32) : Code Unit := fun s =>
  some ((), if 0 ≤ offset.toInt then s.seek offset.toNat else s)

def lseekOut (offset : ℕ) : Code Unit := fun s => some ((), { s with outPos := offset })

/-- `read`: the result, and the bytes. A count that is negative as an `int` is refused. -/
def hostRead (coff : HostFile) (nBytes : Int) : Code (Int × List Byte) := fun s =>
  if nBytes < 0 then some ((-1, []), s)
  else
    let bs := coff.readPartial s.inPos nBytes
    some ((bs.length, bs), s.seek (s.inPos + bs.length))

/-- `write` of a buffer of `nBytes`. A file that would be too large is not written. -/
def hostWrite (buf : List Byte) (nBytes : Int) : Code Int := fun s =>
  if nBytes < 0 then some (-1, s)
  else
    match s.out.writeFile s.outPos buf with
    | some out => some (buf.length, { s with out := out, outPos := s.outPos + buf.length })
    | none => some (-1, s)

/-- `Read`. -/
def Read (coff : HostFile) (nBytes : Int) : Code (List Byte) := do
  let r ← hostRead coff nBytes
  if r.1 ≠ nBytes then stop else pure r.2

/-- `Write`. -/
def Write (buf : List Byte) (nBytes : Int) : Code Unit := do
  let r ← hostWrite buf nBytes
  if r ≠ nBytes then stop else pure ()

def setHeader (f : NoffHeader → BitVec 32 → NoffHeader) : Code Unit := fun s =>
  some ((), { s with noffH := f s.noffH s.inNoffFile })

def header : Code NoffHeader := fun s => some (s.noffH, s)

/-- From `lseek(fdIn, ..)` to `inNoffFile += ..`. -/
def copy (coff : HostFile) (s : Scnhdr) : Code Unit := do
  lseekIn s.s_scnptr
  let buffer ← Read coff s.s_size.toInt
  Write buffer s.s_size.toInt
  fun c => some ((), { c with inNoffFile := c.inNoffFile + s.s_size })

def textSection (coff : HostFile) (s : Scnhdr) : Code Unit := do
  setHeader fun h inNoffFile => { h with code := ⟨s.s_paddr, inNoffFile, s.s_size⟩ }
  copy coff s

def dataSection (coff : HostFile) (s : Scnhdr) : Code Unit := do
  let noffH ← header
  if noffH.initData.size ≠ 0 then stop
  else do
    setHeader fun h inNoffFile => { h with initData := ⟨s.s_paddr, inNoffFile, s.s_size⟩ }
    copy coff s

/-- "make sure they are contiguous": it is when they are that the program gives up. -/
def bssSection (s : Scnhdr) : Code Unit := do
  let noffH ← header
  if noffH.uninitData.size ≠ 0 then
    if s.s_paddr = noffH.uninitData.virtualAddr + noffH.uninitData.size then stop
    else setHeader fun h _ =>
      { h with uninitData := { h.uninitData with size := h.uninitData.size + s.s_size } }
  else setHeader fun h _ =>
    { h with uninitData := { h.uninitData with virtualAddr := s.s_paddr, size := s.s_size } }

/-- The body of the loop over the sections. -/
def oneSection (coff : HostFile) (s : Scnhdr) : Code Unit :=
  if s.s_size = 0 then pure ()
  else
    match s.kind with
    | some .text => textSection coff s
    | some .data => dataSection coff s
    | some .bss => bssSection s
    | none => stop

def loop (coff : HostFile) : List Scnhdr → Code Unit
  | [] => pure ()
  | s :: l => do
    oneSection coff s
    loop coff l

/-- The header as it is written. -/
def headerBytes (h : NoffHeader) : List Byte :=
  [h.noffMagic, h.code.virtualAddr, h.code.inFileAddr, h.code.size, h.initData.virtualAddr,
    h.initData.inFileAddr, h.initData.size, h.uninitData.virtualAddr, h.uninitData.inFileAddr,
    h.uninitData.size].flatMap Bytes.ofWord

/-- A `short` in the first two bytes. -/
def short (bs : List Byte) : ℕ := (bs.getD 0 0).toNat + 256 * (bs.getD 1 0).toNat

/-- The section headers among `raw`. -/
def scnhdrs (numsections : ℕ) (raw : List Byte) : List Scnhdr :=
  (List.range numsections).map fun i => .ofBytes (raw.drop (40 * i))

/-- `main`, once the files are open. -/
def main (coff : HostFile) : Code Unit := do
  let fileh ← Read coff 20
  if short fileh ≠ MIPSELMAGIC then stop
  else do
    let systemh ← Read coff 56
    if short systemh ≠ OMAGIC then stop
    else do
      let numsections := short (fileh.drop 2)
      let sections ← Read coff (numsections * 40 : ℕ)
      lseekOut 40
      loop coff (scnhdrs numsections sections)
      lseekOut 0
      let noffH ← header
      Write (headerBytes noffH) 40

/-- The variables when the loop begins. The rest of `noffH` is whatever was on the stack. -/
def start (stack : NoffHeader) : Conversion where
  inPos := 0
  out := ⟨[], by decide⟩
  outPos := 0
  noffH := ⟨NOFFMAGIC, { stack.code with size := 0 }, { stack.initData with size := 0 },
    { stack.uninitData with size := 0 }⟩
  inNoffFile := 40

/-- The NOFF file, if the program exits with status `0`. -/
def coff2noff (coff : HostFile) (stack : NoffHeader) : Option HostFile :=
  (main coff (start stack)).map fun r => r.2.out

end Nachos.Coff2noff
