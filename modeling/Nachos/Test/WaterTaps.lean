import Nachos.Lib.Bytes
import Nachos.Threads.Refinement

/-!
# The two water taps

`test/main.c`, `test/sinhvien.c` and `test/voinuoc.c` on one line of the input. Files are as in
POSIX: every `Open` gives a position of its own, `Read` past the end returns `-2`, and no call
fails. Between any two instructions of a process the processor may be taken away.
-/
namespace Nachos.WaterTaps

open Concurrent
open Bytes (Byte overwrite)

def space : Byte := 32
def newline : Byte := 10

/-- `c[0] >= '0' && c[0] <= '9'`. -/
def IsDigit (c : Byte) : Prop := 48 ≤ c.toNat ∧ c.toNat ≤ 57

instance (c : Byte) : Decidable (IsDigit c) := inferInstanceAs (Decidable (_ ∧ _))

/-- What a row of digits says. -/
def decimal (ds : List Byte) : ℕ := ds.foldl (fun n c => n * 10 + (c.toNat - 48)) 0

/-- A positive volume, as it is written in the input. -/
structure Volume where
  digits : List Byte
  isDigit : ∀ c ∈ digits, IsDigit c
  positive : 0 < decimal digits

/-- The rest of a line after a volume. -/
def tail : List Volume → List Byte
  | [] => []
  | w :: ws => space :: (w.digits ++ tail ws)

/-- `sinhvien.txt` as `main` has written it: the volumes, with one space between them. -/
def line : List Volume → List Byte
  | [] => []
  | w :: ws => w.digits ++ tail ws

/-- The named semaphores, and one for each process that `Join` waits for. -/
inductive Sem
  | main
  | sinhvien
  | voinuoc
  | joinSinhvien
  | joinVoinuoc
  deriving DecidableEq

/-- What happens to `output.txt`. A volume is reported when `voinuoc` has read it. -/
inductive Ev
  | wrote (V : List Byte)
  | volume (V : Int)
  | tap (number : ℕ)
  | lineEnd
  deriving DecidableEq

/-! ## sinhvien.c -/

inductive SinhVienPc
  | seek
  | read
  | wait
  | seekEnd
  | write
  | signal
  | signalFinal
  | exit
  | ended
  | outOfBounds
  deriving DecidableEq

/-- The variables of `sinhvien`: the position in `output.txt`, what is left to read of
`sinhvien.txt`, the first `len` bytes of the array `V`, and `stop`. -/
structure SinhVien where
  pc : SinhVienPc
  fileOut : ℕ
  rest : List Byte
  V : List Byte
  stop : Bool

namespace SinhVien

def start (volumes : List Volume) : SinhVien := ⟨.seek, 0, line volumes, [], false⟩

/-- One `Read` of a loop that goes on to the end of `output.txt`, and to `next` from there. -/
def seek (s : SinhVien) (output : List Byte) (next : SinhVienPc) : SinhVien :=
  if s.fileOut < output.length then { s with fileOut := s.fileOut + 1 } else { s with pc := next }

/-- `V[len] = c; len++`. The array has ten elements. -/
def store (s : SinhVien) (c : Byte) : SinhVien :=
  if s.V.length < 10 then { s with V := s.V ++ [c] } else { s with pc := .outOfBounds }

/-- One `Read` from `sinhvien.txt`, and what follows a volume. -/
def read (s : SinhVien) : SinhVien :=
  match s.rest with
  | [] => { s with pc := .wait, stop := true }.store space
  | c :: rest =>
    if c = space ∨ c = newline then { s with pc := .wait, rest := rest }.store space
    else { s with rest := rest }.store c

/-- `Write(V, len, fileOut)`. -/
def write (s : SinhVien) (output : List Byte) : SinhVien × List Byte × List Ev :=
  ({ s with pc := .signal, fileOut := s.fileOut + s.V.length },
    overwrite output s.fileOut s.V, [.wrote s.V])

/-- Behind `Signal("sinhvien")` at the end of the loop. -/
def again (s : SinhVien) : SinhVien :=
  if s.stop then { s with pc := .signalFinal } else { s with pc := .read, V := [] }

end SinhVien

/-! ## voinuoc.c -/

inductive VoiNuocPc
  | seek
  | wait
  | read
  | tap
  | signal
  | newline
  | signalMain
  | exit
  | ended
  deriving DecidableEq

structure VoiNuoc where
  pc : VoiNuocPc
  fileOut : ℕ
  V : Int
  v1 : Int
  v2 : Int

/-- Sums and differences of `int`. -/
def wrap (x : Int) : Int := Int.bmod x (2 ^ 32)

/-- The tap that is free. -/
def tapNumber (v : Int × Int) : ℕ := if v.1 = 0 then 1 else 2

/-- What is left at the two taps when a volume goes to the free one. -/
def pour (V : Int) (v : Int × Int) : Int × Int :=
  if v.1 = 0 then
    if V > v.2 then (wrap (V - v.2), 0) else (v.1, wrap (v.2 - V))
  else
    if V > v.1 then (0, wrap (V - v.1)) else (wrap (v.1 - V), v.2)

/-- The bytes that an event adds to `output.txt`. -/
def Ev.bytes : Ev → List Byte
  | .wrote V => V
  | .volume _ => []
  | .tap number => [BitVec.ofNat 8 (48 + number), space]
  | .lineEnd => [newline]

namespace VoiNuoc

def start : VoiNuoc := ⟨.seek, 0, 0, 0, 0⟩

def seek (s : VoiNuoc) (output : List Byte) : VoiNuoc :=
  if s.fileOut < output.length then { s with fileOut := s.fileOut + 1 }
  else { s with pc := .wait, v1 := 0, v2 := 0 }

/-- Behind the loop that reads a volume. -/
def chosen (s : VoiNuoc) : VoiNuoc × List Ev :=
  if s.V = 0 then ({ s with pc := .newline }, []) else ({ s with pc := .tap }, [.volume s.V])

/-- One `Read` of that loop. -/
def read (s : VoiNuoc) (output : List Byte) : VoiNuoc × List Ev :=
  match output[s.fileOut]? with
  | none => s.chosen
  | some c =>
    let s := { s with fileOut := s.fileOut + 1 }
    if IsDigit c then ({ s with V := wrap (s.V * 10 + c.toNat - 48) }, []) else s.chosen

/-- A `Write` to `output.txt`. -/
def write (s : VoiNuoc) (output : List Byte) (e : Ev) (next : VoiNuocPc) :
    VoiNuoc × List Byte × List Ev :=
  ({ s with pc := next, fileOut := s.fileOut + e.bytes.length },
    overwrite output s.fileOut e.bytes, [e])

def tap (s : VoiNuoc) (output : List Byte) : VoiNuoc × List Byte × List Ev :=
  let v := pour s.V (s.v1, s.v2)
  { s with v1 := v.1, v2 := v.2 }.write output (.tap (tapNumber (s.v1, s.v2))) .signal

end VoiNuoc

/-! ## main.c -/

inductive MainPc
  | wait
  | execSinhvien
  | execVoinuoc
  | joinSinhvien
  | joinVoinuoc
  | exit
  deriving DecidableEq

/-- Where a process is. With `due` a tick comes before its next instruction. -/
inductive Pc
  | main (pc : MainPc)
  | sinhvien (due : Bool) (s : SinhVien)
  | voinuoc (due : Bool) (s : VoiNuoc)

abbrev Code := Instr Sem Pc (List Byte) Ev Unit

def sinhvienCode (s : SinhVien) : Code :=
  match s.pc with
  | .seek => .act fun _ output => some (.sinhvien true (s.seek output .read), output, [])
  | .read => .act fun _ output => some (.sinhvien true s.read, output, [])
  | .wait => .P .voinuoc (.sinhvien true { s with pc := .seekEnd })
  | .seekEnd => .act fun _ output => some (.sinhvien true (s.seek output .write), output, [])
  | .write => .act fun _ output =>
    some (.sinhvien true (s.write output).1, (s.write output).2.1, (s.write output).2.2)
  | .signal => .V .sinhvien (.sinhvien true s.again)
  | .signalFinal => .V .sinhvien (.sinhvien true { s with pc := .exit })
  | .exit => .V .joinSinhvien (.sinhvien true { s with pc := .ended })
  | .ended => .finish
  | .outOfBounds => .stop

def voinuocCode (s : VoiNuoc) : Code :=
  match s.pc with
  | .seek => .act fun _ output => some (.voinuoc true (s.seek output), output, [])
  | .wait => .P .sinhvien (.voinuoc true { s with pc := .read, V := 0 })
  | .read => .act fun _ output =>
    some (.voinuoc true (s.read output).1, output, (s.read output).2)
  | .tap => .act fun _ output =>
    some (.voinuoc true (s.tap output).1, (s.tap output).2.1, (s.tap output).2.2)
  | .signal => .V .voinuoc (.voinuoc true { s with pc := .wait })
  | .newline => .act fun _ output =>
    some (.voinuoc true (s.write output .lineEnd .signalMain).1,
      (s.write output .lineEnd .signalMain).2.1, (s.write output .lineEnd .signalMain).2.2)
  | .signalMain => .V .main (.voinuoc true { s with pc := .exit })
  | .exit => .V .joinVoinuoc (.voinuoc true { s with pc := .ended })
  | .ended => .finish

def code (volumes : List Volume) : Pc → Code
  | .main .wait => .P .main (.main .execSinhvien)
  | .main .execSinhvien =>
    .fork (.sinhvien true (.start volumes)) (fun _ => .main .execVoinuoc) fun _ d => d
  | .main .execVoinuoc => .fork (.voinuoc true .start) (fun _ => .main .joinSinhvien) fun _ d => d
  | .main .joinSinhvien => .P .joinSinhvien (.main .joinVoinuoc)
  | .main .joinVoinuoc => .P .joinVoinuoc (.main .exit)
  | .main .exit => .finish
  | .sinhvien true s => .tick (.sinhvien false s)
  | .sinhvien false s => sinhvienCode s
  | .voinuoc true s => .tick (.voinuoc false s)
  | .voinuoc false s => voinuocCode s

/-- One line, with `output.txt` as the lines before have left it. -/
def program (before : List Byte) (volumes : List Volume) : Program Sem Pc (List Byte) Ev Unit where
  code _ := code volumes
  value
    | .main => 1
    | .sinhvien => 0
    | .voinuoc => 1
    | .joinSinhvien => 0
    | .joinVoinuoc => 0
  start := .main .wait
  data := before
  device _ := false
  switchOut _ d := d
  switchIn _ d := d
  interrupt d := d

/-! ## What is to happen -/

/-- The events for the volumes still to come, in order: each is written, read, and answered by a
tap before the next one is written. -/
def script (v : Int × Int) : List Volume → List Ev
  | [] => [.lineEnd]
  | w :: ws =>
    .wrote (w.digits ++ [space]) :: .volume (decimal w.digits) :: .tap (tapNumber v) ::
      script (pour (decimal w.digits) v) ws

/-- The events of the processes, in order. -/
def log (tr : List (Event Sem Ev)) : List Ev :=
  tr.filterMap fun | .act _ e => some e | _ => none

abbrev Atomic := State Sem Pc (List Byte)

/-- `sinhvien` is at a call of `Wait`. -/
def AtWait (a : Atomic) : Prop := ∃ due s, a.pc 1 = .sinhvien due s ∧ s.pc = .wait

/-- `voinuoc` has ended. -/
def Ended (a : Atomic) : Prop := ∃ due s, a.pc 2 = .voinuoc due s ∧ s.pc = .ended

/-- Every volume is handed over. -/
structure HandedOver (before : List Byte) (volumes : List Volume) (tr : List (Event Sem Ev))
    (a : Atomic) : Prop where
  order : log tr <+: script (0, 0) volumes
  contents : a.data = before ++ (log tr).flatMap Ev.bytes
  finished : Ended a → log tr = script (0, 0) volumes
  unblocked : ¬(AtWait a ∧ Ended a)

/-- A write by `sinhvien` finds `voinuoc` past its search for the end of the file. -/
def Sought (a : Atomic) (es : List (Event Sem Ev)) : Prop :=
  (∃ V, .act 1 (.wrote V) ∈ es) → ∃ due s, a.pc 2 = .voinuoc due s ∧ s.pc ≠ .seek

end Nachos.WaterTaps
