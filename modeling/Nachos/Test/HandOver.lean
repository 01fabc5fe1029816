import Nachos.Test.WaterTaps
import Mathlib.Data.List.Induction
import Mathlib.Tactic.Ring

/-!
# Volumes handed over

One unit of the two semaphores goes back and forth between `sinhvien` and `voinuoc`, and whoever
has it finds its position at the end of `output.txt`. The stages below say where the unit is and
what is still to happen. They begin with `voinuoc` at the end of the file; it gets there only if
it is not overtaken by the first write.
-/
namespace Nachos.WaterTaps

open Concurrent
open Bytes (Byte overwrite overwrite_of_le)

/-! ## Digits -/

theorem IsDigit.ne {c : Byte} (h : IsDigit c) : ¬(c = space ∨ c = newline) := by
  rintro (rfl | rfl)
  · exact absurd h (by decide)
  · exact absurd h (by decide)

theorem not_isDigit_space : ¬IsDigit space := by decide

theorem decimal_concat (ds : List Byte) (c : Byte) :
    decimal (ds ++ [c]) = decimal ds * 10 + (c.toNat - 48) := by
  simp [decimal]

theorem le_foldl_decimal (es : List Byte) (n : ℕ) :
    n ≤ es.foldl (fun n c => n * 10 + (c.toNat - 48)) n := by
  induction es generalizing n with
  | nil => exact le_rfl
  | cons c es ih =>
    have hle : n ≤ n * 10 + (c.toNat - 48) := by omega
    exact hle.trans (ih _)

theorem decimal_le (ds es : List Byte) : decimal ds ≤ decimal (ds ++ es) := by
  rw [decimal, decimal, List.foldl_append]
  exact le_foldl_decimal es _

theorem decimal_lt {ds : List Byte} (h : ∀ c ∈ ds, IsDigit c) : decimal ds < 10 ^ ds.length := by
  induction ds using List.reverseRecOn with
  | nil => simp [decimal]
  | append_singleton ds c ih =>
    have hds := ih fun c' hc' => h c' (List.mem_append_left _ hc')
    have hc := (h c (by simp)).2
    rw [decimal_concat, List.length_append, List.length_singleton, pow_succ]
    omega

/-- A number that does not get too large is computed without overflow. -/
theorem wrap_decimal {ds : List Byte} {c : Byte} (hc : IsDigit c)
    (h : decimal (ds ++ [c]) < 2 ^ 31) :
    wrap (decimal ds * 10 + c.toNat - 48) = decimal (ds ++ [c]) := by
  have hsum : (decimal ds * 10 + c.toNat - 48 : Int) = decimal (ds ++ [c]) := by
    have h0 := hc.1
    rw [decimal_concat]
    push_cast [Nat.cast_sub h0]
    ring
  rw [hsum, wrap, Int.bmod_eq_of_le] <;> omega

theorem overwrite_length (output bs : List Byte) :
    overwrite output output.length bs = output ++ bs := by
  rw [overwrite_of_le le_rfl, Bytes.overlay, List.take_length, List.drop_of_length_le (by omega),
    List.append_nil]

/-! ## Stages -/

/-- The array `V` and the `int` of the same name are large enough. -/
def Ev.Fits : Ev → Prop
  | .wrote V => V.length ≤ 10
  | .volume V => V < 2 ^ 31
  | _ => True

/-- `sinhvien` has got its next volume, and then what comes after it. -/
structure Loaded (w : Volume) (ws : List Volume) (s : SinhVien) : Prop where
  V : s.V = w.digits ++ [space]
  rest : s.rest = line ws
  stop : s.stop = ws.isEmpty

/-- `sinhvien` does not have the unit, and these volumes are still to be written. -/
inductive Ready : List Volume → SinhVien → Prop
  | seek {w : Volume} {ws : List Volume} {s : SinhVien} (hpc : s.pc = .seek)
      (hrest : s.rest = line (w :: ws)) (hV : s.V = []) (hstop : s.stop = false) :
      Ready (w :: ws) s
  | read {w : Volume} {ws : List Volume} {l : List Byte} {s : SinhVien} (hpc : s.pc = .read)
      (hV : s.V ++ l = w.digits) (hrest : s.rest = l ++ tail ws) (hstop : s.stop = false) :
      Ready (w :: ws) s
  | wait {w : Volume} {ws : List Volume} {s : SinhVien} (hpc : s.pc = .wait)
      (hl : Loaded w ws s) : Ready (w :: ws) s
  | done {s : SinhVien} (hpc : s.pc = .signalFinal ∨ s.pc = .exit ∨ s.pc = .ended) : Ready [] s

/-- The unit that `sinhvien` gives for the last turn of the loop in `voinuoc`. -/
def extra (s : SinhVien) : Int := if s.pc = .exit ∨ s.pc = .ended then 1 else 0

/-- `voinuoc` has nothing to read. -/
inductive Listening (output : List Byte) (v : Int × Int) (n : VoiNuoc) : Prop
  | seek (hpc : n.pc = .seek) (hv : v = (0, 0)) (hle : n.fileOut ≤ output.length)
  | wait (hpc : n.pc = .wait) (hv : v = (n.v1, n.v2)) (hat : n.fileOut = output.length)

/-- `voinuoc` has the volume `w` before it, of which it has read `ds`. -/
structure Offered (output : List Byte) (v : Int × Int) (w : Volume) (ds : List Byte)
    (n : VoiNuoc) : Prop where
  v : v = (n.v1, n.v2)
  ahead : ∃ es, ds ++ es = w.digits ∧ output.drop n.fileOut = es ++ [space]

/-- What is still to happen once `w` is in the file. -/
def afterWrite (v : Int × Int) (w : Volume) (ws : List Volume) : List Ev :=
  .volume (decimal w.digits) :: .tap (tapNumber v) :: script (pour (decimal w.digits) v) ws

/-- Where the processes are with each other: the file, the events still to come, the values of
`voinuoc` and of `sinhvien`, and the two processes. -/
inductive Stage (output : List Byte) : List Ev → Int → Int → SinhVien → VoiNuoc → Prop
  | preparing {v : Int × Int} {todo : List Volume} {s : SinhVien} {n : VoiNuoc}
      (hs : Ready todo s) (hn : Listening output v n) :
      Stage output (script v todo) 1 (extra s) s n
  | writing {v : Int × Int} {w : Volume} {ws : List Volume} {s : SinhVien} {n : VoiNuoc}
      (hpc : s.pc = .seekEnd ∨ s.pc = .write ∧ s.fileOut = output.length) (hl : Loaded w ws s)
      (hn : Listening output v n) : Stage output (script v (w :: ws)) 0 0 s n
  | written {v : Int × Int} {w : Volume} {ws : List Volume} {s : SinhVien} {n : VoiNuoc}
      (hpc : s.pc = .signal) (hl : Loaded w ws s) (hn : n.pc = .wait)
      (ho : Offered output v w [] n) : Stage output (afterWrite v w ws) 0 0 s n
  | offered {v : Int × Int} {w : Volume} {ws : List Volume} {s : SinhVien} {n : VoiNuoc}
      (hs : Ready ws s) (hn : n.pc = .wait) (ho : Offered output v w [] n) :
      Stage output (afterWrite v w ws) 0 (1 + extra s) s n
  | reading {v : Int × Int} {w : Volume} {ws : List Volume} {l : List Byte} {s : SinhVien}
      {n : VoiNuoc} (hs : Ready ws s) (hn : n.pc = .read) (ho : Offered output v w l n)
      (hV : n.V = decimal l) : Stage output (afterWrite v w ws) 0 (extra s) s n
  | tap {w : Volume} {ws : List Volume} {s : SinhVien} {n : VoiNuoc} (hs : Ready ws s)
      (hn : n.pc = .tap) (hV : n.V = decimal w.digits) (hat : n.fileOut = output.length) :
      Stage output (.tap (tapNumber (n.v1, n.v2)) ::
        script (pour (decimal w.digits) (n.v1, n.v2)) ws) 0 (extra s) s n
  | tapped {ws : List Volume} {s : SinhVien} {n : VoiNuoc} (hs : Ready ws s) (hn : n.pc = .signal)
      (hat : n.fileOut = output.length) : Stage output (script (n.v1, n.v2) ws) 0 (extra s) s n
  | ending {s : SinhVien} {n : VoiNuoc} (hs : Ready [] s) (he : extra s = 1)
      (hn : n.pc = .read ∧ n.V = 0 ∨ n.pc = .newline) (hat : n.fileOut = output.length) :
      Stage output [.lineEnd] 1 0 s n
  | closed {s : SinhVien} {n : VoiNuoc} (hs : Ready [] s) (he : extra s = 1)
      (hn : n.pc = .signalMain ∨ n.pc = .exit ∨ n.pc = .ended) : Stage output [] 1 0 s n

variable {output : List Byte} {left : List Ev} {vV vS : Int} {s s' : SinhVien} {n : VoiNuoc}
  {w : Volume} {ws todo : List Volume} {v : Int × Int}

/-- The places where `sinhvien` has the unit. -/
theorem Ready.pc_ne (h : Ready todo s) : s.pc ≠ .seekEnd ∧ s.pc ≠ .write ∧ s.pc ≠ .signal := by
  cases h with
  | seek hpc | read hpc | wait hpc => simp [hpc]
  | done hpc => rcases hpc with hpc | hpc | hpc <;> simp [hpc]

theorem extra_eq_zero (h : Ready (w :: ws) s) : extra s = 0 := by
  cases h with
  | seek hpc | read hpc | wait hpc => simp [extra, hpc]

theorem extra_le_one (s : SinhVien) : extra s ≤ 1 := by
  unfold extra
  split <;> simp

theorem mem_script (hw : w ∈ ws) : ∀ v, .wrote (w.digits ++ [space]) ∈ script v ws := by
  induction ws with
  | nil => simp at hw
  | cons w' ws ih =>
    intro v
    rcases List.mem_cons.mp hw with rfl | hw
    · exact List.mem_cons_self
    · simp [script, ih hw]

/-- All volumes still to come fit into the array. -/
theorem length_digits_le (h : ∀ e ∈ script v ws, e.Fits) : ∀ w ∈ ws, w.digits.length ≤ 9 := by
  intro w hw
  have hfits : (w.digits ++ [space]).length ≤ 10 := h _ (mem_script hw v)
  rw [List.length_append, List.length_singleton] at hfits
  omega

theorem script_of_afterWrite (h : ∀ e ∈ afterWrite v w ws, e.Fits) :
    ∀ e ∈ script (pour (decimal w.digits) v) ws, e.Fits :=
  fun e he => h e (List.mem_cons_of_mem _ (List.mem_cons_of_mem _ he))

/-! ## Steps of sinhvien -/

theorem Ready.seek_step (h : Ready todo s) (hpc : s.pc = .seek) (output : List Byte) :
    Ready todo (s.seek output .read) := by
  cases h with
  | @seek w ws _ hpc hrest hV hstop =>
    unfold SinhVien.seek
    split
    · exact .seek hpc hrest hV hstop
    · exact .read (l := w.digits) rfl (by simp [hV]) hrest hstop
  | read h | wait h => simp [hpc] at h
  | done h => simp [hpc] at h

theorem Ready.read_step (h : Ready todo s) (hpc : s.pc = .read)
    (hfit : ∀ w ∈ todo, w.digits.length ≤ 9) : Ready todo s.read := by
  cases h with
  | @read w ws ds _ _ hV hrest hstop =>
    have hle := hfit w List.mem_cons_self
    have hlen := congrArg List.length hV
    rw [List.length_append] at hlen
    have hlt : s.V.length < 10 := by omega
    cases ds with
    | nil =>
      rw [List.append_nil] at hV
      rw [List.nil_append] at hrest
      cases ws with
      | nil =>
        simp only [SinhVien.read, hrest, tail, SinhVien.store, if_pos hlt]
        exact .wait rfl ⟨by simp [hV], rfl, rfl⟩
      | cons w' ws =>
        simp only [SinhVien.read, hrest, tail, SinhVien.store, if_pos hlt, true_or, if_true]
        exact .wait rfl ⟨by simp [hV], rfl, hstop⟩
    | cons c ds =>
      have hc : IsDigit c := w.isDigit c (by simp [← hV])
      simp only [SinhVien.read, hrest, List.cons_append, if_neg hc.ne, SinhVien.store, if_pos hlt]
      exact .read (l := ds) hpc (by simpa using hV) rfl hstop
  | seek h | wait h => simp [hpc] at h
  | done h => simp [hpc] at h

/-- A step of `sinhvien` while it does not have the unit. -/
theorem Stage.ready_step (h : Stage output left vV vS s n) (s' : SinhVien)
    (hpc : s.pc ≠ .seekEnd ∧ s.pc ≠ .write ∧ s.pc ≠ .signal)
    (hs : ∀ todo, (∀ w ∈ todo, w.digits.length ≤ 9) → Ready todo s → Ready todo s')
    (he : extra s ≤ extra s') (hfit : ∀ e ∈ left, e.Fits) :
    Stage output left vV (vS + (extra s' - extra s)) s' n := by
  have hone := extra_le_one s'
  cases h with
  | preparing hr hn =>
    rw [add_sub_cancel]
    exact .preparing (hs _ (length_digits_le hfit) hr) hn
  | writing h => simp [hpc] at h
  | written h => simp [hpc] at h
  | offered hr hn ho =>
    rw [add_assoc, add_sub_cancel]
    exact .offered (hs _ (length_digits_le (script_of_afterWrite hfit)) hr) hn ho
  | reading hr hn ho hV =>
    rw [add_sub_cancel]
    exact .reading (hs _ (length_digits_le (script_of_afterWrite hfit)) hr) hn ho hV
  | tap hr hn hV hat =>
    rw [add_sub_cancel]
    exact .tap (hs _ (length_digits_le fun e he => hfit e (List.mem_cons_of_mem _ he)) hr) hn hV hat
  | tapped hr hn hat =>
    rw [add_sub_cancel]
    exact .tapped (hs _ (length_digits_le hfit) hr) hn hat
  | ending hr h1 hn hat =>
    have h1' : extra s' = 1 := by omega
    rw [h1, h1', sub_self, add_zero]
    exact .ending (hs _ (by simp) hr) h1' hn hat
  | closed hr h1 hn =>
    have h1' : extra s' = 1 := by omega
    rw [h1, h1', sub_self, add_zero]
    exact .closed (hs _ (by simp) hr) h1' hn

/-- `Wait("voinuoc")`. -/
theorem Stage.wait_sinhvien (h : Stage output left vV vS s n) (hpc : s.pc = .wait) (hv : vV ≠ 0) :
    Stage output left (decr vV) vS { s with pc := .seekEnd } n := by
  cases h with
  | preparing hr hn =>
    cases hr with
    | wait _ hl =>
      have he : extra s = 0 := by simp [extra, hpc]
      rw [he]
      exact .writing (.inl rfl) ⟨hl.V, hl.rest, hl.stop⟩ hn
    | seek h | read h => simp [hpc] at h
    | done h => simp [hpc] at h
  | writing | written | offered | reading | tap | tapped => exact absurd rfl hv
  | ending _ he | closed _ he => simp [extra, hpc] at he

theorem Stage.seekEnd_sinhvien (h : Stage output left vV vS s n) (hpc : s.pc = .seekEnd)
    (hle : s.fileOut ≤ output.length) : Stage output left vV vS (s.seek output .write) n := by
  cases h with
  | writing _ hl hn =>
    unfold SinhVien.seek
    split
    · exact .writing (.inl hpc) ⟨hl.V, hl.rest, hl.stop⟩ hn
    · exact .writing (.inr ⟨rfl, by simp; omega⟩) ⟨hl.V, hl.rest, hl.stop⟩ hn
  | written h => simp [hpc] at h
  | preparing hr | offered hr | reading hr | tap hr | tapped hr | ending hr | closed hr =>
    exact absurd hpc (by simp [hr.pc_ne])

/-- The write that must not come before `voinuoc` is at the end of the file. -/
theorem Stage.write_sinhvien (h : Stage output left vV vS s n) (hpc : s.pc = .write)
    (hn : n.pc ≠ .seek) : ∃ left', left = (s.write output).2.2 ++ left' ∧
      (s.write output).2.1 = output ++ (s.write output).2.2.flatMap Ev.bytes ∧
      Stage (s.write output).2.1 left' vV vS (s.write output).1 n := by
  cases h with
  | @writing v w ws s n h hl hlisten =>
    obtain ⟨-, hat⟩ : s.pc = .write ∧ s.fileOut = output.length := by simpa [hpc] using h
    have hout : (s.write output).2.1 = output ++ s.V := by
      rw [SinhVien.write, hat]
      exact overwrite_length output s.V
    refine ⟨afterWrite v w ws, ?_, ?_, ?_⟩
    · simp [SinhVien.write, hl.V, script, afterWrite]
    · rw [hout]
      simp [SinhVien.write, Ev.bytes]
    · rw [hout]
      cases hlisten with
      | seek h => exact absurd h hn
      | wait hwait hv hend =>
        refine .written rfl ⟨hl.V, hl.rest, hl.stop⟩ hwait ⟨hv, w.digits, rfl, ?_⟩
        rw [hend, List.drop_left, hl.V]
  | written h => simp [hpc] at h
  | preparing hr | offered hr | reading hr | tap hr | tapped hr | ending hr | closed hr =>
    exact absurd hpc (by simp [hr.pc_ne])

theorem Loaded.again (hl : Loaded w ws s) : Ready ws s.again ∧ extra s.again = 0 := by
  cases ws with
  | nil =>
    have hstop : s.stop = true := hl.stop
    simp only [SinhVien.again, hstop, if_true]
    exact ⟨.done (.inl rfl), by simp [extra]⟩
  | cons w' ws =>
    have hstop : s.stop = false := hl.stop
    simp only [SinhVien.again, hstop, Bool.false_eq_true, if_false]
    exact ⟨.read (l := w'.digits) rfl rfl hl.rest rfl, by simp [extra]⟩

/-- `Signal("sinhvien")` with a volume. -/
theorem Stage.signal_sinhvien (h : Stage output left vV vS s n) (hpc : s.pc = .signal) :
    Stage output left vV (incr vS) s.again n := by
  cases h with
  | written _ hl hn ho =>
    obtain ⟨hr, he⟩ := hl.again
    have hs := Stage.offered hr hn ho
    rw [he] at hs
    exact hs
  | writing h => simp [hpc] at h
  | preparing hr | offered hr | reading hr | tap hr | tapped hr | ending hr | closed hr =>
    exact absurd hpc (by simp [hr.pc_ne])

/-! ## Steps of voinuoc -/

theorem Listening.pc_eq (h : Listening output v n) : n.pc = .seek ∨ n.pc = .wait := by
  cases h with
  | seek hpc => exact .inl hpc
  | wait hpc => exact .inr hpc

theorem Listening.seek_step (h : Listening output v n) (hpc : n.pc = .seek) :
    Listening output v (n.seek output) := by
  cases h with
  | seek _ hv hle =>
    unfold VoiNuoc.seek
    split
    · exact .seek hpc hv (by simp; omega)
    · exact .wait rfl hv (by simp; omega)
  | wait h => simp [hpc] at h

theorem Stage.seek_voinuoc (h : Stage output left vV vS s n) (hpc : n.pc = .seek) :
    Stage output left vV vS s (n.seek output) := by
  cases h with
  | preparing hs hn => exact .preparing hs (hn.seek_step hpc)
  | writing h hl hn => exact .writing h hl (hn.seek_step hpc)
  | written _ _ hn | offered _ hn | reading _ hn | tap _ hn | tapped _ hn | ending _ _ hn
  | closed _ _ hn => simp [hpc] at hn

/-- `Wait("sinhvien")` returns with a volume in the file, or when there will be none. -/
theorem Stage.wait_voinuoc (h : Stage output left vV vS s n) (hpc : n.pc = .wait) (hv : vS ≠ 0) :
    Stage output left vV (decr vS) s { n with pc := .read, V := 0 } := by
  have hone := extra_le_one s
  cases h with
  | @preparing v todo _ _ hs hn =>
    cases todo with
    | nil =>
      have he : extra s = 1 := by
        unfold extra at hv ⊢
        split
        · rfl
        · rename_i h
          exact absurd (if_neg h) hv
      cases hn with
      | seek h => simp [hpc] at h
      | wait _ _ hat =>
        rw [he]
        exact .ending hs he (.inl ⟨rfl, rfl⟩) hat
    | cons w ws => exact absurd (extra_eq_zero hs) hv
  | writing | written => exact absurd rfl hv
  | offered hs _ ho =>
    have hdecr : decr (1 + extra s) = extra s := by
      unfold extra
      split <;> decide
    rw [hdecr]
    exact .reading (l := []) hs rfl ⟨ho.v, ho.ahead⟩ rfl
  | reading _ hn | tap _ hn | tapped _ hn | ending _ _ hn | closed _ _ hn => simp [hpc] at hn

/-- One byte of a volume, or the space behind it. -/
theorem Stage.read_voinuoc (h : Stage output left vV vS s n) (hpc : n.pc = .read)
    (hfit : ∀ e ∈ left, e.Fits) : ∃ left', left = (n.read output).2 ++ left' ∧
      Stage output left' vV vS s (n.read output).1 := by
  cases h with
  | @reading v w ws ds _ _ hs hn ho hV =>
    obtain ⟨es, hes, hahead⟩ := ho.ahead
    have hat : output[n.fileOut]? = (es ++ [space]).head? := by
      rw [← hahead, List.head?_drop]
    have hlt : n.fileOut < output.length := by
      by_contra hge
      rw [List.drop_of_length_le (by omega)] at hahead
      simp at hahead
    have hv := ho.v
    cases es with
    | nil =>
      rw [List.append_nil] at hes
      subst hes
      have hpos := w.positive
      have hne : n.V ≠ 0 := by omega
      have hlast : n.fileOut + 1 = output.length := by
        have hlen := congrArg List.length hahead
        simp only [List.length_drop, List.nil_append, List.length_singleton] at hlen
        omega
      simp only [VoiNuoc.read, hat, List.nil_append, List.head?_cons, if_neg not_isDigit_space,
        VoiNuoc.chosen, if_neg hne]
      refine ⟨_, by rw [hV]; rfl, ?_⟩
      subst hv
      exact .tap (n := { n with pc := .tap, fileOut := n.fileOut + 1 }) hs rfl hV hlast
    | cons c es =>
      have hc : IsDigit c := w.isDigit c (by simp [← hes])
      have hval : (decimal w.digits : Int) < 2 ^ 31 := hfit _ List.mem_cons_self
      have hlt31 : decimal (ds ++ [c]) < 2 ^ 31 := by
        have hle := decimal_le (ds ++ [c]) es
        rw [List.append_assoc, List.singleton_append, hes] at hle
        omega
      simp only [VoiNuoc.read, hat, List.cons_append, List.head?_cons, if_pos hc, hV,
        wrap_decimal hc hlt31]
      refine ⟨_, rfl, .reading (l := ds ++ [c]) hs hpc ⟨hv, es, by simpa using hes, ?_⟩ rfl⟩
      rw [← List.drop_drop, hahead]
      rfl
  | ending hs he hn hat =>
    obtain ⟨-, h0⟩ : n.pc = .read ∧ n.V = 0 := by simpa [hpc] using hn
    have hnone : output[n.fileOut]? = none := by simp [hat]
    simp only [VoiNuoc.read, hnone, VoiNuoc.chosen, if_pos h0]
    exact ⟨_, rfl, .ending hs he (.inr rfl) hat⟩
  | preparing _ hn | writing _ _ hn => simpa [hpc] using hn.pc_eq
  | written _ _ hn | offered _ hn | tap _ hn | tapped _ hn | closed _ _ hn => simp [hpc] at hn

theorem write_voinuoc (hat : n.fileOut = output.length) (e : Ev) (next : VoiNuocPc) :
    (n.write output e next).2.1 = output ++ e.bytes ∧
      (n.write output e next).1.fileOut = (output ++ e.bytes).length := by
  constructor
  · rw [VoiNuoc.write, hat]
    exact overwrite_length output _
  · simp [VoiNuoc.write, hat]

/-- The number of the tap goes directly behind the volume. -/
theorem Stage.tap_voinuoc (h : Stage output left vV vS s n) (hpc : n.pc = .tap) :
    ∃ left', left = (n.tap output).2.2 ++ left' ∧
      (n.tap output).2.1 = output ++ (n.tap output).2.2.flatMap Ev.bytes ∧
      Stage (n.tap output).2.1 left' vV vS s (n.tap output).1 := by
  cases h with
  | @tap w ws _ _ hs _ hV hat =>
    obtain ⟨hout, hend⟩ := write_voinuoc (n := { n with
      v1 := (pour n.V (n.v1, n.v2)).1, v2 := (pour n.V (n.v1, n.v2)).2 }) hat
      (.tap (tapNumber (n.v1, n.v2))) .signal
    refine ⟨script (pour (decimal w.digits) (n.v1, n.v2)) ws, rfl, ?_, ?_⟩
    · simpa [VoiNuoc.tap, VoiNuoc.write] using hout
    · rw [← hV]
      refine .tapped (n := (n.tap output).1) hs rfl ?_
      rw [VoiNuoc.tap, hout]
      exact hend
  | preparing _ hn | writing _ _ hn => simpa [hpc] using hn.pc_eq
  | written _ _ hn | offered _ hn | reading _ hn | tapped _ hn | ending _ _ hn | closed _ _ hn =>
    simp [hpc] at hn

/-- `Signal("voinuoc")` gives the unit back. -/
theorem Stage.signal_voinuoc (h : Stage output left vV vS s n) (hpc : n.pc = .signal) :
    Stage output left (incr vV) vS s { n with pc := .wait } := by
  cases h with
  | tapped hs _ hat => exact .preparing hs (.wait rfl rfl hat)
  | preparing _ hn | writing _ _ hn => simpa [hpc] using hn.pc_eq
  | written _ _ hn | offered _ hn | reading _ hn | tap _ hn | ending _ _ hn | closed _ _ hn =>
    simp [hpc] at hn

theorem Stage.newline_voinuoc (h : Stage output left vV vS s n) (hpc : n.pc = .newline) :
    ∃ left', left = (n.write output .lineEnd .signalMain).2.2 ++ left' ∧
      (n.write output .lineEnd .signalMain).2.1 =
        output ++ (n.write output .lineEnd .signalMain).2.2.flatMap Ev.bytes ∧
      Stage (n.write output .lineEnd .signalMain).2.1 left' vV vS s
        (n.write output .lineEnd .signalMain).1 := by
  cases h with
  | ending hs he _ hat =>
    refine ⟨[], rfl, ?_, .closed hs he (.inl rfl)⟩
    simpa [VoiNuoc.write] using (write_voinuoc hat .lineEnd .signalMain).1
  | preparing _ hn | writing _ _ hn => simpa [hpc] using hn.pc_eq
  | written _ _ hn | offered _ hn | reading _ hn | tap _ hn | tapped _ hn | closed _ _ hn =>
    simp [hpc] at hn

/-- Behind the end of the line only the file descriptor is given back. -/
theorem Stage.leave_voinuoc {next : VoiNuocPc} (h : Stage output left vV vS s n)
    (hpc : n.pc = .signalMain ∨ n.pc = .exit) (hnext : next = .exit ∨ next = .ended) :
    Stage output left vV vS s { n with pc := next } := by
  cases h with
  | closed hs he _ => exact .closed hs he (.inr hnext)
  | preparing _ hn | writing _ _ hn => rcases hn.pc_eq with hn | hn <;> simp [hn] at hpc
  | written _ _ hn | offered _ hn | reading _ hn | tap _ hn | tapped _ hn => simp [hn] at hpc
  | ending _ _ hn => rcases hn with ⟨hn, -⟩ | hn <;> simp [hn] at hpc

/-! ## Instructions -/

/-- Which process is at such a place. -/
def kind : Pc → Tid
  | .main _ => 0
  | .sinhvien _ _ => 1
  | .voinuoc _ _ => 2

/-- How many processes there are, by the place of `main`. -/
def forked : Pc → Tid
  | .main .wait | .main .execSinhvien => 1
  | .main .execVoinuoc => 2
  | _ => 3

variable {volumes : List Volume} {k k' : Pc} {x : Sem}

/-- The local actions of `sinhvien`. -/
inductive SinhVienAct (s : SinhVien) (output : List Byte) :
    SinhVien → List Byte → List Ev → Prop
  | seek (hpc : s.pc = .seek) : SinhVienAct s output (s.seek output .read) output []
  | read (hpc : s.pc = .read) : SinhVienAct s output s.read output []
  | seekEnd (hpc : s.pc = .seekEnd) : SinhVienAct s output (s.seek output .write) output []
  | write (hpc : s.pc = .write) :
      SinhVienAct s output (s.write output).1 (s.write output).2.1 (s.write output).2.2

/-- The local actions of `voinuoc`. -/
inductive VoiNuocAct (n : VoiNuoc) (output : List Byte) : VoiNuoc → List Byte → List Ev → Prop
  | seek (hpc : n.pc = .seek) : VoiNuocAct n output (n.seek output) output []
  | read (hpc : n.pc = .read) :
      VoiNuocAct n output (n.read output).1 output (n.read output).2
  | tap (hpc : n.pc = .tap) :
      VoiNuocAct n output (n.tap output).1 (n.tap output).2.1 (n.tap output).2.2
  | newline (hpc : n.pc = .newline) :
      VoiNuocAct n output (n.write output .lineEnd .signalMain).1
        (n.write output .lineEnd .signalMain).2.1 (n.write output .lineEnd .signalMain).2.2

theorem code_act {f : Unit → List Byte → Option (Pc × List Byte × List Ev)} {c : Unit}
    {d d' : List Byte} {es : List Ev} (h : code volumes k = .act f)
    (hf : f c d = some (k', d', es)) :
    (∃ s s', k = .sinhvien false s ∧ k' = .sinhvien true s' ∧ SinhVienAct s d s' d' es) ∨
      ∃ n n', k = .voinuoc false n ∧ k' = .voinuoc true n' ∧ VoiNuocAct n d n' d' es := by
  cases k with
  | main pc => cases pc <;> cases h
  | sinhvien due s =>
    left
    cases due with
    | true => cases h
    | false =>
      cases hpc : s.pc <;> simp only [code, sinhvienCode, hpc] at h <;> cases h <;> cases hf
      · exact ⟨s, _, rfl, rfl, .seek hpc⟩
      · exact ⟨s, _, rfl, rfl, .read hpc⟩
      · exact ⟨s, _, rfl, rfl, .seekEnd hpc⟩
      · exact ⟨s, _, rfl, rfl, .write hpc⟩
  | voinuoc due n =>
    right
    cases due with
    | true => cases h
    | false =>
      cases hpc : n.pc <;> simp only [code, voinuocCode, hpc] at h <;> cases h <;> cases hf
      · exact ⟨n, _, rfl, rfl, .seek hpc⟩
      · exact ⟨n, _, rfl, rfl, .read hpc⟩
      · exact ⟨n, _, rfl, rfl, .tap hpc⟩
      · exact ⟨n, _, rfl, rfl, .newline hpc⟩

theorem code_P (h : code volumes k = .P x k') :
    (∃ pc pc', k = .main pc ∧ k' = .main pc' ∧ x ≠ .voinuoc ∧ x ≠ .sinhvien ∧
      forked k' = forked k) ∨
    (∃ s, k = .sinhvien false s ∧ s.pc = .wait ∧ x = .voinuoc ∧
      k' = .sinhvien true { s with pc := .seekEnd }) ∨
    ∃ n, k = .voinuoc false n ∧ n.pc = .wait ∧ x = .sinhvien ∧
      k' = .voinuoc true { n with pc := .read, V := 0 } := by
  cases k with
  | main pc =>
    left
    cases pc <;> cases h <;> exact ⟨_, _, rfl, rfl, by simp, by simp, rfl⟩
  | sinhvien due s =>
    cases due with
    | true => cases h
    | false =>
      cases hpc : s.pc <;> simp only [code, sinhvienCode, hpc] at h <;> cases h
      exact .inr (.inl ⟨s, rfl, hpc, rfl, rfl⟩)
  | voinuoc due n =>
    cases due with
    | true => cases h
    | false =>
      cases hpc : n.pc <;> simp only [code, voinuocCode, hpc] at h <;> cases h
      exact .inr (.inr ⟨n, rfl, hpc, rfl, rfl⟩)

theorem code_V (h : code volumes k = .V x k') :
    (∃ s, k = .sinhvien false s ∧
      (s.pc = .signal ∧ x = .sinhvien ∧ k' = .sinhvien true s.again ∨
        s.pc = .signalFinal ∧ x = .sinhvien ∧ k' = .sinhvien true { s with pc := .exit } ∨
        s.pc = .exit ∧ x = .joinSinhvien ∧ k' = .sinhvien true { s with pc := .ended })) ∨
    ∃ n, k = .voinuoc false n ∧
      (n.pc = .signal ∧ x = .voinuoc ∧ k' = .voinuoc true { n with pc := .wait } ∨
        n.pc = .signalMain ∧ x = .main ∧ k' = .voinuoc true { n with pc := .exit } ∨
        n.pc = .exit ∧ x = .joinVoinuoc ∧ k' = .voinuoc true { n with pc := .ended }) := by
  cases k with
  | main pc => cases pc <;> cases h
  | sinhvien due s =>
    left
    cases due with
    | true => cases h
    | false =>
      cases hpc : s.pc <;> simp only [code, sinhvienCode, hpc] at h <;> cases h
      · exact ⟨s, rfl, .inl ⟨hpc, rfl, rfl⟩⟩
      · exact ⟨s, rfl, .inr (.inl ⟨hpc, rfl, rfl⟩)⟩
      · exact ⟨s, rfl, .inr (.inr ⟨hpc, rfl, rfl⟩)⟩
  | voinuoc due n =>
    right
    cases due with
    | true => cases h
    | false =>
      cases hpc : n.pc <;> simp only [code, voinuocCode, hpc] at h <;> cases h
      · exact ⟨n, rfl, .inl ⟨hpc, rfl, rfl⟩⟩
      · exact ⟨n, rfl, .inr (.inl ⟨hpc, rfl, rfl⟩)⟩
      · exact ⟨n, rfl, .inr (.inr ⟨hpc, rfl, rfl⟩)⟩

theorem code_tick (h : code volumes k = .yield k' ∨ code volumes k = .tick k') :
    (∃ s, k = .sinhvien true s ∧ k' = .sinhvien false s) ∨
      ∃ n, k = .voinuoc true n ∧ k' = .voinuoc false n := by
  cases k with
  | main pc => cases pc <;> simp [code] at h
  | sinhvien due s =>
    cases due with
    | true => exact .inl ⟨s, rfl, by simpa [code, eq_comm] using h⟩
    | false => cases hpc : s.pc <;> simp [code, sinhvienCode, hpc] at h
  | voinuoc due n =>
    cases due with
    | true => exact .inr ⟨n, rfl, by simpa [code, eq_comm] using h⟩
    | false => cases hpc : n.pc <;> simp [code, voinuocCode, hpc] at h

theorem code_fork {child : Pc} {cont : Tid → Pc} {setup : Tid → List Byte → List Byte}
    (h : code volumes k = .fork child cont setup) : (∀ u d, setup u d = d) ∧
      (k = .main .execSinhvien ∧ child = .sinhvien true (.start volumes) ∧
          cont = (fun _ => .main .execVoinuoc) ∨
        k = .main .execVoinuoc ∧ child = .voinuoc true .start ∧
          cont = fun _ => .main .joinSinhvien) := by
  cases k with
  | main pc =>
    cases pc <;> cases h
    · exact ⟨fun _ _ => rfl, .inl ⟨rfl, rfl, rfl⟩⟩
    · exact ⟨fun _ _ => rfl, .inr ⟨rfl, rfl, rfl⟩⟩
  | sinhvien due s =>
    cases due with
    | true => cases h
    | false => cases hpc : s.pc <;> simp [code, sinhvienCode, hpc] at h
  | voinuoc due n =>
    cases due with
    | true => cases h
    | false => cases hpc : n.pc <;> simp [code, voinuocCode, hpc] at h

/-! ## Runs -/

structure Crew (a : Atomic) : Prop where
  kinds : ∀ t < a.nextTid, kind (a.pc t) = t
  count : a.nextTid = forked (a.pc 0)
  fresh : ∀ t, a.nextTid ≤ t → a.pc t = .main .wait

variable {before : List Byte} {tr es : List (Event Sem Ev)} {a b : Atomic}
  {t : Tid}

theorem Crew.move (h : Crew a) (ht : t < a.nextTid) (hk : kind k = kind (a.pc t))
    (hf : forked k = forked (a.pc t)) (hn : b.nextTid = a.nextTid)
    (hpc : b.pc = Function.update a.pc t k) : Crew b where
  kinds u hu := by
    rw [hn] at hu
    rw [hpc]
    by_cases hut : u = t
    · subst hut
      rw [Function.update_self, hk]
      exact h.kinds u hu
    · rw [Function.update_of_ne hut]
      exact h.kinds u hu
  count := by
    rw [hn, hpc, h.count]
    by_cases h0 : 0 = t
    · subst h0
      rw [Function.update_self, hf]
    · rw [Function.update_of_ne h0]
  fresh u hu := by
    rw [hn] at hu
    rw [hpc, Function.update_of_ne (ht.trans_le hu).ne']
    exact h.fresh u hu

theorem Crew.pc_zero (h : Crew a) (ht : t < a.nextTid) {pc : MainPc} (hk : a.pc t = .main pc) :
    t = 0 := by
  have hkind := h.kinds t ht
  rw [hk] at hkind
  exact hkind.symm

theorem Crew.pc_one (h : Crew a) (ht : t < a.nextTid) {due : Bool}
    {s : SinhVien} (hk : a.pc t = .sinhvien due s) : t = 1 := by
  have hkind := h.kinds t ht
  rw [hk] at hkind
  exact hkind.symm

theorem Crew.pc_two (h : Crew a) (ht : t < a.nextTid) {due : Bool}
    {n : VoiNuoc} (hk : a.pc t = .voinuoc due n) : t = 2 := by
  have hkind := h.kinds t ht
  rw [hk] at hkind
  exact hkind.symm

/-- `main` executes a program. -/
theorem Crew.exec {child : Pc} {d : List Byte} (h : Crew a) (hpos : 0 < a.nextTid)
    (hchild : kind child = a.nextTid) (hk : kind k = 0) (hf : forked k = a.nextTid + 1) :
    Crew { (a.goto a.nextTid child).goto 0 k with nextTid := a.nextTid + 1, data := d } where
  kinds u hu := by
    by_cases h0 : u = 0
    · subst h0
      simpa using hk
    · by_cases hun : u = a.nextTid
      · subst hun
        simpa [h0] using hchild
      · have hlt : u < a.nextTid := lt_of_le_of_ne (Nat.lt_succ_iff.mp hu) hun
        simpa [h0, hun] using h.kinds u hlt
  count := by simpa using hf.symm
  fresh u hu := by
    have hlt : a.nextTid < u := hu
    simpa [(hpos.trans hlt).ne', hlt.ne'] using h.fresh u hlt.le

theorem crew_step (hs : Step (program before volumes) a es b) (h : Crew a) : Crew b := by
  cases hs with
  | P ht hc hv =>
    rcases code_P hc with ⟨pc, pc', hk, rfl, -, -, hf⟩ | ⟨s, hk, -, -, rfl⟩ | ⟨n, hk, -, -, rfl⟩
    · exact h.move ht (by rw [hk]; rfl) hf rfl rfl
    · exact h.move ht (by rw [hk]; rfl) (by rw [hk]; rfl) rfl rfl
    · exact h.move ht (by rw [hk]; rfl) (by rw [hk]; rfl) rfl rfl
  | V ht hc =>
    rcases code_V hc with ⟨s, hk, ⟨-, -, rfl⟩ | ⟨-, -, rfl⟩ | ⟨-, -, rfl⟩⟩ |
      ⟨n, hk, ⟨-, -, rfl⟩ | ⟨-, -, rfl⟩ | ⟨-, -, rfl⟩⟩
    all_goals exact h.move ht (by rw [hk]; rfl) (by rw [hk]; rfl) rfl rfl
  | handler hd => cases hd
  | yield ht hc =>
    rcases code_tick hc with ⟨s, hk, rfl⟩ | ⟨n, hk, rfl⟩
    · exact h.move ht (by rw [hk]; rfl) (by rw [hk]; rfl) rfl rfl
    · exact h.move ht (by rw [hk]; rfl) (by rw [hk]; rfl) rfl rfl
  | @fork t child cont setup ht hc =>
    obtain ⟨-, ⟨hk, rfl, rfl⟩ | ⟨hk, rfl, rfl⟩⟩ := code_fork hc
    · obtain rfl := h.pc_zero ht hk
      have hn : a.nextTid = 1 := by rw [h.count, hk]; rfl
      exact h.exec ht hn.symm rfl (by rw [hn]; rfl)
    · obtain rfl := h.pc_zero ht hk
      have hn : a.nextTid = 2 := by rw [h.count, hk]; rfl
      exact h.exec ht hn.symm rfl (by rw [hn]; rfl)
  | act ht hc hf =>
    rcases code_act hc hf with ⟨s, s', hk, rfl, -⟩ | ⟨n, n', hk, rfl, -⟩
    · exact h.move ht (by rw [hk]; rfl) (by rw [hk]; rfl) rfl rfl
    · exact h.move ht (by rw [hk]; rfl) (by rw [hk]; rfl) rfl rfl
  | hook hd => exact ⟨h.kinds, h.count, h.fresh⟩

/-- The state of `sinhvien`, also before it is there. -/
def sinhvienAt (volumes : List Volume) : Pc → SinhVien
  | .sinhvien _ s => s
  | _ => .start volumes

def voinuocAt : Pc → VoiNuoc
  | .voinuoc _ n => n
  | _ => .start

/-- A stage of the two processes of a state. -/
def At (volumes : List Volume) (left : List Ev) (a : Atomic) : Prop :=
  Stage a.data left (a.value .voinuoc) (a.value .sinhvien) (sinhvienAt volumes (a.pc 1))
    (voinuocAt (a.pc 2))

structure Inv (before : List Byte) (volumes : List Volume) (tr : List (Event Sem Ev))
    (a : Atomic) : Prop where
  crew : Crew a
  position : (sinhvienAt volumes (a.pc 1)).fileOut ≤ a.data.length
  contents : a.data = before ++ (log tr).flatMap Ev.bytes
  stage : ∃ left, log tr ++ left = script (0, 0) volumes ∧ At volumes left a

theorem log_append (tr es : List (Event Sem Ev)) : log (tr ++ es) = log tr ++ log es :=
  List.filterMap_append

theorem log_acts (t : Tid) (es : List Ev) : log (es.map (.act t)) = es := by
  simp [log, List.filterMap_map]

theorem script_fits (h : ∀ w ∈ volumes, w.digits.length ≤ 9) (v : Int × Int) :
    ∀ e ∈ script v volumes, e.Fits := by
  induction volumes generalizing v with
  | nil => simp [script, Ev.Fits]
  | cons w ws ih =>
    have hw := h w List.mem_cons_self
    have hlt : decimal w.digits < 10 ^ 9 :=
      (decimal_lt w.isDigit).trans_le (Nat.pow_le_pow_right (by omega) hw)
    intro e he
    simp only [script, List.mem_cons] at he
    rcases he with rfl | rfl | rfl | he
    · simp only [Ev.Fits, List.length_append, List.length_singleton]
      omega
    · simp only [Ev.Fits]
      omega
    · trivial
    · exact ih (fun w' hw' => h w' (List.mem_cons_of_mem w hw')) _ e he

/-- A step that takes the next events off the script and adds their bytes to the file. -/
theorem Inv.step (h : Inv before volumes tr a) (hfit : ∀ w ∈ volumes, w.digits.length ≤ 9)
    (hcrew : Crew b)
    (hstep : ∀ left, (∀ e ∈ left, e.Fits) → At volumes left a →
      (∃ left', left = log es ++ left' ∧ At volumes left' b) ∧
      b.data = a.data ++ (log es).flatMap Ev.bytes ∧
      (sinhvienAt volumes (b.pc 1)).fileOut ≤ b.data.length) :
    Inv before volumes (tr ++ es) b := by
  obtain ⟨left, hleft, ha⟩ := h.stage
  have hfits : ∀ e ∈ left, e.Fits := fun e he =>
    script_fits hfit (0, 0) e (hleft ▸ List.mem_append_right _ he)
  obtain ⟨⟨left', rfl, hb⟩, hdata, hpos⟩ := hstep left hfits ha
  refine ⟨hcrew, hpos, ?_, left', ?_, hb⟩
  · rw [hdata, h.contents, log_append, List.flatMap_append, List.append_assoc]
  · rw [log_append, List.append_assoc]
    exact hleft

/-- A step on the semaphores. -/
theorem Inv.silent (h : Inv before volumes tr a) (hfit : ∀ w ∈ volumes, w.digits.length ≤ 9)
    (hcrew : Crew b) (hlog : log es = []) (hdata : b.data = a.data)
    (hpos : (sinhvienAt volumes (b.pc 1)).fileOut = (sinhvienAt volumes (a.pc 1)).fileOut)
    (hstage : ∀ left, (∀ e ∈ left, e.Fits) → At volumes left a → At volumes left b) :
    Inv before volumes (tr ++ es) b := by
  refine h.step hfit hcrew fun left hfits ha => ⟨⟨left, by simp [hlog], hstage left hfits ha⟩, ?_, ?_⟩
  · simp [hlog, hdata]
  · rw [hpos, hdata]
    exact h.position

/-- A step that neither of the two processes notices. -/
theorem Inv.quiet (h : Inv before volumes tr a) (hfit : ∀ w ∈ volumes, w.digits.length ≤ 9)
    (hcrew : Crew b) (hlog : log es = []) (hdata : b.data = a.data)
    (hvV : b.value .voinuoc = a.value .voinuoc) (hvS : b.value .sinhvien = a.value .sinhvien)
    (hs : sinhvienAt volumes (b.pc 1) = sinhvienAt volumes (a.pc 1))
    (hn : voinuocAt (b.pc 2) = voinuocAt (a.pc 2)) : Inv before volumes (tr ++ es) b := by
  refine h.silent hfit hcrew hlog hdata (by rw [hs]) fun left _ ha => ?_
  rw [At, hdata, hvV, hvS, hs, hn]
  exact ha

theorem length_seek_le {next : SinhVienPc} (h : s.fileOut ≤ output.length) :
    (s.seek output next).fileOut ≤ output.length := by
  unfold SinhVien.seek
  split
  · simp
    omega
  · exact h

theorem read_fileOut (s : SinhVien) : s.read.fileOut = s.fileOut := by
  unfold SinhVien.read SinhVien.store
  split
  · split <;> rfl
  · split
    · split <;> rfl
    · split <;> rfl

theorem extra_seek (hpc : s.pc = .seek) (output : List Byte) :
    extra (s.seek output .read) = 0 := by
  unfold SinhVien.seek
  split <;> simp [extra, hpc]

theorem extra_read (hpc : s.pc = .read) : extra s.read = 0 := by
  unfold SinhVien.read SinhVien.store
  split
  · split <;> simp [extra]
  · split
    · split <;> simp [extra]
    · split <;> simp [extra, hpc]

theorem SinhVienAct.stage {d d' : List Byte} {es : List Ev} (hact : SinhVienAct s d s' d' es)
    (h : Stage d left vV vS s n) (hfit : ∀ e ∈ left, e.Fits) (hle : s.fileOut ≤ d.length)
    (hn : (∃ V, .wrote V ∈ es) → n.pc ≠ .seek) :
    (∃ left', left = es ++ left' ∧ Stage d' left' vV vS s' n) ∧
      d' = d ++ es.flatMap Ev.bytes ∧ s'.fileOut ≤ d'.length := by
  cases hact with
  | seek hpc =>
    have he : extra s = 0 := by simp [extra, hpc]
    have he' := extra_seek hpc d
    have hs := h.ready_step (s.seek d .read) (by simp [hpc])
      (fun todo _ hr => hr.seek_step hpc d) (by rw [he, he']) hfit
    rw [he, he', sub_self, add_zero] at hs
    exact ⟨⟨left, rfl, hs⟩, by simp, length_seek_le hle⟩
  | read hpc =>
    have he : extra s = 0 := by simp [extra, hpc]
    have he' := extra_read hpc
    have hs := h.ready_step s.read (by simp [hpc])
      (fun todo hw hr => hr.read_step hpc hw) (by rw [he, he']) hfit
    rw [he, he', sub_self, add_zero] at hs
    exact ⟨⟨left, rfl, hs⟩, by simp, (read_fileOut s).trans_le hle⟩
  | seekEnd hpc =>
    exact ⟨⟨left, rfl, h.seekEnd_sinhvien hpc hle⟩, by simp, length_seek_le hle⟩
  | write hpc =>
    obtain ⟨left', hleft, hout, hs⟩ := h.write_sinhvien hpc (hn ⟨s.V, List.mem_cons_self⟩)
    refine ⟨⟨left', hleft, hs⟩, hout, ?_⟩
    rw [hout]
    simp [SinhVien.write, Ev.bytes]
    omega

theorem VoiNuocAct.stage {d d' : List Byte} {es : List Ev} {n' : VoiNuoc}
    (hact : VoiNuocAct n d n' d' es) (h : Stage d left vV vS s n) (hfit : ∀ e ∈ left, e.Fits) :
    (∃ left', left = es ++ left' ∧ Stage d' left' vV vS s n') ∧
      d' = d ++ es.flatMap Ev.bytes := by
  cases hact with
  | seek hpc => exact ⟨⟨left, rfl, h.seek_voinuoc hpc⟩, by simp⟩
  | read hpc =>
    refine ⟨h.read_voinuoc hpc hfit, ?_⟩
    have hbytes : (n.read d).2.flatMap Ev.bytes = [] := by
      unfold VoiNuoc.read VoiNuoc.chosen
      split
      · split <;> rfl
      · dsimp only
        split
        · rfl
        · split <;> rfl
    rw [hbytes, List.append_nil]
  | tap hpc =>
    obtain ⟨left', hleft, hout, hs⟩ := h.tap_voinuoc hpc
    exact ⟨⟨left', hleft, hs⟩, hout⟩
  | newline hpc =>
    obtain ⟨left', hleft, hout, hs⟩ := h.newline_voinuoc hpc
    exact ⟨⟨left', hleft, hs⟩, hout⟩

theorem Stage.incr_eq (h : Stage output left vV vS s n) : incr vS = vS + 1 := by
  have h0 : 0 ≤ extra s := by
    unfold extra
    split <;> simp
  have h1 := extra_le_one s
  have hb : 0 ≤ vS ∧ vS ≤ 2 := by
    cases h with
    | preparing | offered | reading | tap | tapped => constructor <;> omega
    | writing | written | ending | closed => simp
  exact Concurrent.incr_eq (by omega) (by omega)

/-- The last `Signal("sinhvien")`. -/
theorem Stage.signalFinal_sinhvien (h : Stage output left vV vS s n) (hpc : s.pc = .signalFinal)
    (hfit : ∀ e ∈ left, e.Fits) : Stage output left vV (incr vS) { s with pc := .exit } n := by
  have he : extra s = 0 := by simp [extra, hpc]
  have he' : extra { s with pc := .exit } = 1 := by simp [extra]
  have hs := h.ready_step { s with pc := .exit } (by simp [hpc]) ?_ (by omega) hfit
  · rw [he, he', sub_zero] at hs
    rwa [h.incr_eq]
  · intro todo _ hr
    cases hr with
    | done => exact .done (.inr (.inl rfl))
    | seek h | read h | wait h => simp [hpc] at h

theorem Stage.exit_sinhvien (h : Stage output left vV vS s n) (hpc : s.pc = .exit)
    (hfit : ∀ e ∈ left, e.Fits) : Stage output left vV vS { s with pc := .ended } n := by
  have he : extra s = 1 := by simp [extra, hpc]
  have he' : extra { s with pc := .ended } = 1 := by simp [extra]
  have hs := h.ready_step { s with pc := .ended } (by simp [hpc]) ?_ (by omega) hfit
  · rwa [he, he', sub_self, add_zero] at hs
  · intro todo _ hr
    cases hr with
    | done => exact .done (.inr (.inr rfl))
    | seek h | read h | wait h => simp [hpc] at h

theorem again_fileOut (s : SinhVien) : s.again.fileOut = s.fileOut := by
  unfold SinhVien.again
  split <;> rfl

theorem inv_step (hs : Step (program before volumes) a es b) (hsought : Sought a es)
    (hfit : ∀ w ∈ volumes, w.digits.length ≤ 9) (h : Inv before volumes tr a) :
    Inv before volumes (tr ++ es) b := by
  have hcrew := crew_step hs h.crew
  cases hs with
  | @P t x k ht hc hv =>
    rcases code_P hc with ⟨pc, pc', hk, rfl, hx, hx', -⟩ | ⟨s, hk, hpc, rfl, rfl⟩ |
      ⟨n, hk, hpc, rfl, rfl⟩
    · obtain rfl := h.crew.pc_zero ht hk
      exact h.quiet hfit hcrew rfl rfl (by simp [hx.symm]) (by simp [hx'.symm]) (by simp) (by simp)
    · obtain rfl := h.crew.pc_one ht hk
      refine h.silent hfit hcrew rfl rfl (by simp [hk, sinhvienAt]) fun left _ ha => ?_
      have hst := Stage.wait_sinhvien ha (by rw [hk]; exact hpc) hv
      simpa [At, hk, sinhvienAt] using hst
    · obtain rfl := h.crew.pc_two ht hk
      refine h.silent hfit hcrew rfl rfl (by simp) fun left _ ha => ?_
      have hst := Stage.wait_voinuoc ha (by rw [hk]; exact hpc) hv
      simpa [At, hk, voinuocAt] using hst
  | @V t x k ht hc =>
    rcases code_V hc with ⟨s, hk, hs⟩ | ⟨n, hk, hn⟩
    · obtain rfl := h.crew.pc_one ht hk
      rcases hs with ⟨hpc, rfl, rfl⟩ | ⟨hpc, rfl, rfl⟩ | ⟨hpc, rfl, rfl⟩
      · refine h.silent hfit hcrew rfl rfl (by simp [hk, sinhvienAt, again_fileOut])
          fun left _ ha => ?_
        have hst := Stage.signal_sinhvien ha (by rw [hk]; exact hpc)
        simpa [At, hk, sinhvienAt] using hst
      · refine h.silent hfit hcrew rfl rfl (by simp [hk, sinhvienAt]) fun left hfits ha => ?_
        have hst := Stage.signalFinal_sinhvien ha (by rw [hk]; exact hpc) hfits
        simpa [At, hk, sinhvienAt] using hst
      · refine h.silent hfit hcrew rfl rfl (by simp [hk, sinhvienAt]) fun left hfits ha => ?_
        have hst := Stage.exit_sinhvien ha (by rw [hk]; exact hpc) hfits
        simpa [At, hk, sinhvienAt] using hst
    · obtain rfl := h.crew.pc_two ht hk
      refine h.silent hfit hcrew rfl rfl ?_ fun left _ ha => ?_
      · simp
      rcases hn with ⟨hpc, rfl, rfl⟩ | ⟨hpc, rfl, rfl⟩ | ⟨hpc, rfl, rfl⟩
      · have hst := Stage.signal_voinuoc ha (by rw [hk]; exact hpc)
        simpa [At, hk, voinuocAt] using hst
      · have hst := Stage.leave_voinuoc ha (.inl (by rw [hk]; exact hpc)) (.inl rfl)
        simpa [At, hk, voinuocAt] using hst
      · have hst := Stage.leave_voinuoc ha (.inr (by rw [hk]; exact hpc)) (.inr rfl)
        simpa [At, hk, voinuocAt] using hst
  | handler hd => cases hd
  | @yield t k ht hc =>
    rcases code_tick hc with ⟨s, hk, rfl⟩ | ⟨n, hk, rfl⟩
    · obtain rfl := h.crew.pc_one ht hk
      exact h.quiet hfit hcrew rfl rfl rfl rfl (by simp [hk, sinhvienAt]) (by simp)
    · obtain rfl := h.crew.pc_two ht hk
      exact h.quiet hfit hcrew rfl rfl rfl rfl (by simp) (by simp [hk, voinuocAt])
  | @fork t child cont setup ht hc =>
    -- what a process will begin with is what it is taken to be before
    obtain ⟨hsetup, ⟨hk, rfl, rfl⟩ | ⟨hk, rfl, rfl⟩⟩ := code_fork hc
    · obtain rfl := h.crew.pc_zero ht hk
      have hn : a.nextTid = 1 := by rw [h.crew.count, hk]; rfl
      have hfresh := h.crew.fresh 1 hn.le
      exact h.quiet hfit hcrew rfl (hsetup _ _) rfl rfl (by simp [hn, hfresh, sinhvienAt])
        (by simp [hn])
    · obtain rfl := h.crew.pc_zero ht hk
      have hn : a.nextTid = 2 := by rw [h.crew.count, hk]; rfl
      have hfresh := h.crew.fresh 2 hn.le
      exact h.quiet hfit hcrew rfl (hsetup _ _) rfl rfl (by simp [hn])
        (by simp [hn, hfresh, voinuocAt])
  | @act t f c k d es ht hc hf =>
    rcases code_act hc hf with ⟨s, s', hk, rfl, hact⟩ | ⟨n, n', hk, rfl, hact⟩
    · obtain rfl := h.crew.pc_one ht hk
      have hsv : sinhvienAt volumes (a.pc 1) = s := by rw [hk]; rfl
      have hn : (∃ V, .wrote V ∈ es) → (voinuocAt (a.pc 2)).pc ≠ .seek := by
        rintro ⟨V, hV⟩
        obtain ⟨due, n, hn, hne⟩ := hsought ⟨V, List.mem_map_of_mem hV⟩
        rw [hn]
        exact hne
      refine h.step hfit hcrew fun left hfits ha => ?_
      rw [At, hsv] at ha
      have hst := hact.stage ha hfits (hsv ▸ h.position) hn
      rw [log_acts]
      simpa [At, sinhvienAt] using hst
    · obtain rfl := h.crew.pc_two ht hk
      have hvn : voinuocAt (a.pc 2) = n := by rw [hk]; rfl
      refine h.step hfit hcrew fun left hfits ha => ?_
      rw [At, hvn] at ha
      obtain ⟨hst, hdata⟩ := hact.stage ha hfits
      have hpos : (sinhvienAt volumes (a.pc 1)).fileOut ≤ d.length := by
        rw [hdata, List.length_append]
        exact h.position.trans (Nat.le_add_right _ _)
      rw [log_acts]
      exact ⟨by simpa [At, voinuocAt] using hst, hdata, by simpa using hpos⟩
  | hook hd =>
    cases hd <;> exact h.quiet hfit hcrew rfl rfl rfl rfl rfl rfl

theorem inv_run (hne : volumes ≠ []) (hfit : ∀ w ∈ volumes, w.digits.length ≤ 9)
    (h : ((atomic (program before volumes)).restrict Sought).Run tr a) :
    Inv before volumes tr a := by
  refine h.invariant ?_ ?_
  · rintro a rfl
    refine ⟨⟨?_, rfl, fun _ _ => rfl⟩, Nat.zero_le _, by simp [program, Program.initial, log], ?_⟩
    · intro t ht
      exact (Nat.lt_one_iff.mp ht).symm
    · refine ⟨script (0, 0) volumes, rfl, ?_⟩
      obtain ⟨w, ws, rfl⟩ := List.exists_cons_of_ne_nil hne
      have hs : Ready (w :: ws) (.start (w :: ws)) := .seek rfl rfl rfl rfl
      have hn : Listening before (0, 0) .start := .seek rfl rfl (Nat.zero_le _)
      exact .preparing hs hn
  · intro tr a es b _ hi hs
    exact inv_step hs.1 hs.2 hfit hi

theorem Stage.of_ended (h : Stage output left vV vS s n) (hpc : n.pc = .ended) :
    left = [] ∧ Ready [] s := by
  cases h with
  | closed hs => exact ⟨rfl, hs⟩
  | preparing _ hn | writing _ _ hn => simpa [hpc] using hn.pc_eq
  | written _ _ hn | offered _ hn | reading _ hn | tap _ hn | tapped _ hn | ending _ _ hn =>
    simp [hpc] at hn

theorem Inv.handedOver (hi : Inv before volumes tr a) : HandedOver before volumes tr a := by
  obtain ⟨left, hleft, ha⟩ := hi.stage
  have hended : Ended a → left = [] ∧ Ready [] (sinhvienAt volumes (a.pc 1)) := by
    rintro ⟨due, n, hk, hpc⟩
    exact Stage.of_ended ha (by rw [hk]; exact hpc)
  refine ⟨⟨left, hleft⟩, hi.contents, ?_, ?_⟩
  · intro he
    rw [← hleft, (hended he).1, List.append_nil]
  · rintro ⟨⟨due, s, hk, hpc⟩, he⟩
    have hs := (hended he).2
    rw [hk] at hs
    cases hs with
    | done h => simp [sinhvienAt, hpc] at h

/-- The same under the thread system. -/
theorem handed_over_kernel {ktr : List (KEvent Sem Ev)} {σ : Kernel Sem Pc (List Byte)}
    (hne : volumes ≠ []) (hfit : ∀ w ∈ volumes, w.digits.length ≤ 9)
    (h : ((kernel (program before volumes)).restrict fun σ es =>
      Sought σ.atomically (synced es)).Run ktr σ) :
    HandedOver before volumes (synced ktr) σ.atomically := by
  have hnil : ∀ a, Sought a [] := by
    rintro a ⟨V, hV⟩
    simp at hV
  have hi := inv_run hne hfit (atomic_run_restrict hnil h)
  exact hi.handedOver

end Nachos.WaterTaps
