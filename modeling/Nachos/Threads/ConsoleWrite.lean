import Nachos.Lib.Section
import Nachos.Threads.SynchConsole

/-!
# Output on the console

A trace is cut into sections, one for each time `WLineBlock` is taken. What is put on the
display, signalled and waited for in a section is what one call of `Write` asks for.
-/
namespace Nachos.SynchConsole

open Concurrent
open Bytes (Byte)

/-- What happens in a section: a character is put on the display, the device reports it, and the
thread gets past `synchWriteAvail->P()`. -/
inductive WriteItem
  | put (ch : Byte)
  | done
  | woken
  deriving DecidableEq

def writeMark : Event ConsoleSem ConsoleEvent → Option (Section.Mark Tid WriteItem)
  | .P t .WLineBlock => some (.enter t)
  | .act _ (.putChar ch) => some (.item (.put ch))
  | .V none .synchWriteAvail => some (.item .done)
  | .P _ .synchWriteAvail => some (.item .woken)
  | _ => none

/-- The sections, in the order in which `WLineBlock` is held. -/
def writeSections (tr : List (Event ConsoleSem ConsoleEvent)) : List (Tid × List WriteItem) :=
  Section.sectionsOf writeMark tr

/-- All that a call does for the bytes it is given. -/
def script (bs : List Byte) : List WriteItem := bs.flatMap fun ch => [.put ch, .done, .woken]

/-- What is put on the display. -/
def puts (xs : List WriteItem) : List Byte :=
  xs.filterMap fun | .put ch => some ch | _ => none

/-- The calls of `Write` that `t` has made. -/
def writeCalls (t : Tid) (tr : List (Event ConsoleSem ConsoleEvent)) : List ConsoleWrite :=
  tr.filterMap fun | .act t' (.write w) => if t' = t then some w else none | _ => none

/-- Those that have returned. -/
def writesDone (t : Tid) (tr : List (Event ConsoleSem ConsoleEvent)) : List ConsoleWrite :=
  tr.filterMap fun | .act t' (.wrote w _) => if t' = t then some w else none | _ => none

/-- The call a thread is in. -/
def openWrite : ConsolePc → List ConsoleWrite
  | .writeLock w | .writeLoop w _ | .writeWait w _ | .writeUnlock w | .writeReturn w => [w]
  | _ => []

/-- The section of that call so far, once it has one. `v` is the value of `synchWriteAvail`. -/
def part (v : Int) : ConsolePc → List (List WriteItem)
  | .writeLoop w loop => [script (w.bytes.take loop)]
  | .writeWait w loop =>
    [script (w.bytes.take loop) ++ .put (w.bytes.getD loop 0) :: if v = 0 then [] else [.done]]
  | .writeUnlock w | .writeReturn w => [script w.bytes]
  | _ => []

def InLoop : ConsolePc → Prop
  | .writeLoop w loop => loop ≤ w.numBytes.toNat
  | .writeWait w loop => (loop : Int) < w.numBytes
  | _ => True

def waits : ConsolePc → Bool
  | .writeWait _ _ => true
  | _ => false

variable {tr es : List (Event ConsoleSem ConsoleEvent)} {a b : Atomic} {t : Tid} {v : Int}
  {p k : ConsolePc} {d : Console}

@[simp] theorem writeCalls_append : writeCalls t (tr ++ es) = writeCalls t tr ++ writeCalls t es :=
  List.filterMap_append

@[simp] theorem writesDone_append : writesDone t (tr ++ es) = writesDone t tr ++ writesDone t es :=
  List.filterMap_append

theorem script_append (bs cs : List Byte) : script (bs ++ cs) = script bs ++ script cs :=
  List.flatMap_append

theorem puts_append (xs ys : List WriteItem) : puts (xs ++ ys) = puts xs ++ puts ys :=
  List.filterMap_append

/-- A script puts just its bytes on the display. -/
theorem puts_script (bs : List Byte) : puts (script bs) = bs := by
  induction bs with
  | nil => rfl
  | cons ch bs ih => simpa [script, puts] using ih

theorem bytes_getD {w : ConsoleWrite} {loop : ℕ} (h : (loop : Int) < w.numBytes) :
    w.bytes.getD loop 0 = w.char loop h := by
  have hn : loop < w.numBytes.toNat := by omega
  have hl : loop < w.from'.length := by
    have := w.enough
    omega
  simp [ConsoleWrite.bytes, ConsoleWrite.char, List.getD_eq_getElem?_getD, hn, hl]

/-- The sections a thread should have, by what it has done and where it is. -/
def expected (tr : List (Event ConsoleSem ConsoleEvent)) (v : Int) (t : Tid) (p : ConsolePc) :
    List (List WriteItem) :=
  (writesDone t tr).map (fun w => script w.bytes) ++ part v p

/-- What the trace says of the calls of a thread agrees with where it is. -/
structure Writer (tr : List (Event ConsoleSem ConsoleEvent)) (t : Tid) (p : ConsolePc) : Prop where
  calls : writeCalls t tr = writesDone t tr ++ openWrite p
  inLoop : InLoop p

/-- The device between two characters. -/
structure Idle (v : Int) (d : Console) : Prop where
  putBusy : d.putBusy = false
  writeInts : d.writeInts = 0
  value : v = 0

/-- The device while a thread waits for it: busy, or done and the thread not yet past `P`. -/
inductive Active (v : Int) (d : Console) : Prop
  | busy (hb : d.putBusy = true) (hi : d.writeInts = 1) (hv : v = 0)
  | signalled (hb : d.putBusy = false) (hi : d.writeInts = 0) (hv : v = 1)

structure WriteInv (tr : List (Event ConsoleSem ConsoleEvent)) (a : Atomic) : Prop where
  sections : Section.Sectioned (writeSections tr) (fun t => writing (a.pc t))
    fun t => expected tr (a.value .synchWriteAvail) t (a.pc t)
  writer : ∀ t, Writer tr t (a.pc t)
  device : (∀ t, waits (a.pc t) = false) ∧ Idle (a.value .synchWriteAvail) a.data ∨
    (∃ t, waits (a.pc t) = true) ∧ Active (a.value .synchWriteAvail) a.data
  display : a.data.display = (writeSections tr).flatMap fun c => puts c.2
  asserts : ∀ t, .act t .assertFailed ∉ tr

/-- Where a thread is not waiting, the semaphore does not matter. -/
theorem part_of_not_waits (h : waits p = false) (v v' : Int) : part v p = part v' p := by
  cases p <;> simp_all [part, waits]

theorem writing_of_waits (h : waits p = true) : writing p = true := by
  cases p <;> simp_all [waits, writing]

/-- Nobody waits but the holder of the lock. -/
theorem others_not_waiting (honly : ∀ u, writing (b.pc u) = true → u = t) {u : Tid} (hut : u ≠ t) :
    waits (b.pc u) = false := by
  cases hw : waits (b.pc u) with
  | false => rfl
  | true => exact absurd (honly u (writing_of_waits hw)) hut

theorem expected_of_done (h : writesDone t es = []) :
    expected (tr ++ es) v t p = expected tr v t p := by
  simp [expected, h]

theorem Writer.frame (h : Writer tr t p) (hcalls : writeCalls t es = [])
    (hdone : writesDone t es = []) (hopen : openWrite k = openWrite p) (hloop : InLoop k) :
    Writer (tr ++ es) t k where
  calls := by simpa [hcalls, hdone, hopen] using h.calls
  inLoop := hloop

/-- A step outside of all sections: at most one thread moves, and the device stays as it is. -/
theorem WriteInv.outside (h : WriteInv tr a) (t : Tid) (hes : es.filterMap writeMark = [])
    (hv : b.value .synchWriteAvail = a.value .synchWriteAvail)
    (hbusy : b.data.putBusy = a.data.putBusy) (hints : b.data.writeInts = a.data.writeInts)
    (hdisplay : b.data.display = a.data.display) (hpc : ∀ u, u ≠ t → b.pc u = a.pc u)
    (hcalls : ∀ u, u ≠ t → writeCalls u es = []) (hdone : ∀ u, u ≠ t → writesDone u es = [])
    (hself : Writer (tr ++ es) t (b.pc t))
    (hexpected : expected (tr ++ es) (a.value .synchWriteAvail) t (b.pc t) =
      expected tr (a.value .synchWriteAvail) t (a.pc t))
    (hwriting : writing (b.pc t) = true → writing (a.pc t) = true)
    (hwaits : waits (b.pc t) = waits (a.pc t))
    (hasserts : ∀ u, .act u .assertFailed ∉ es) : WriteInv (tr ++ es) b := by
  have hsec : writeSections (tr ++ es) = writeSections tr := Section.sectionsOf_none hes
  have hw : ∀ u, waits (b.pc u) = waits (a.pc u) := by
    intro u
    by_cases hut : u = t
    · rw [hut, hwaits]
    · rw [hpc u hut]
  refine ⟨?_, ?_, ?_, ?_, ?_⟩
  · rw [hsec, hv]
    refine h.sections.keep (fun u => ?_) fun u hu => ?_
    · by_cases hut : u = t
      · rw [hut, hexpected]
      · rw [hpc u hut, expected_of_done (hdone u hut)]
    · by_cases hut : u = t
      · subst hut
        exact hwriting hu
      · exact hpc u hut ▸ hu
  · intro u
    by_cases hut : u = t
    · rw [hut]
      exact hself
    · rw [hpc u hut]
      exact (h.writer u).frame (hcalls u hut) (hdone u hut) rfl (h.writer u).inLoop
  · simp only [hw, hv]
    rcases h.device with ⟨hn, hi⟩ | ⟨hn, hi⟩
    · exact .inl ⟨hn, by rw [hbusy, hi.putBusy], by rw [hints, hi.writeInts], hi.value⟩
    · cases hi with
      | busy hb hi hv => exact .inr ⟨hn, .busy (by rw [hbusy, hb]) (by rw [hints, hi]) hv⟩
      | signalled hb hi hv =>
        exact .inr ⟨hn, .signalled (by rw [hbusy, hb]) (by rw [hints, hi]) hv⟩
  · rw [hdisplay, hsec]
    exact h.display
  · intro u hm
    rcases List.mem_append.mp hm with hm | hm
    · exact h.asserts u hm
    · exact hasserts u hm

/-- A step in the section of `t`, which holds the lock when it is over. -/
theorem WriteInv.inside (h : WriteInv tr a) (t : Tid) (hpc : ∀ u, u ≠ t → b.pc u = a.pc u)
    (honly : ∀ u, writing (b.pc u) = true → u = t) (hcalls : ∀ u, writeCalls u es = [])
    (hdone : ∀ u, writesDone u es = [])
    (hsections : Section.Sectioned (writeSections (tr ++ es)) (fun u => writing (b.pc u))
      fun u => expected tr (b.value .synchWriteAvail) u (b.pc u))
    (hopen : openWrite (b.pc t) = openWrite (a.pc t)) (hloop : InLoop (b.pc t))
    (hdevice : waits (b.pc t) = false ∧ Idle (b.value .synchWriteAvail) b.data ∨
      waits (b.pc t) = true ∧ Active (b.value .synchWriteAvail) b.data)
    (hdisplay : b.data.display = (writeSections (tr ++ es)).flatMap fun c => puts c.2)
    (hasserts : ∀ u, .act u .assertFailed ∉ es) : WriteInv (tr ++ es) b := by
  refine ⟨?_, ?_, ?_, hdisplay, ?_⟩
  · exact hsections.keep (fun u => expected_of_done (hdone u)) fun _ => id
  · intro u
    by_cases hut : u = t
    · subst hut
      exact (h.writer u).frame (hcalls u) (hdone u) hopen hloop
    · rw [hpc u hut]
      exact (h.writer u).frame (hcalls u) (hdone u) rfl (h.writer u).inLoop
  · rcases hdevice with ⟨hw, hi⟩ | ⟨hw, hi⟩
    · refine .inl ⟨fun u => ?_, hi⟩
      by_cases hut : u = t
      · rw [hut, hw]
      · exact others_not_waiting honly hut
    · exact .inr ⟨⟨t, hw⟩, hi⟩
  · intro u hm
    rcases List.mem_append.mp hm with hm | hm
    · exact h.asserts u hm
    · exact hasserts u hm

/-- Nobody but the holder of the lock looks at `synchWriteAvail`. -/
theorem expected_others (hpc : ∀ u, u ≠ t → b.pc u = a.pc u)
    (honly : ∀ u, writing (b.pc u) = true → u = t) (v v' : Int) (u : Tid) (hut : u ≠ t) :
    expected tr v u (b.pc u) = expected tr v' u (a.pc u) := by
  have hw := others_not_waiting honly hut
  rw [hpc u hut] at hw ⊢
  rw [expected, expected, part_of_not_waits hw v v']

/-- One more item in the section of `t`, which is held before and after. -/
theorem WriteInv.item (h : WriteInv tr a) {t : Tid} {x : WriteItem} {xs : List WriteItem}
    (ht : writing (a.pc t) = true) (hx : es.filterMap writeMark = [.item x])
    (hpc : ∀ u, u ≠ t → b.pc u = a.pc u) (honly : ∀ u, writing (b.pc u) = true → u = t)
    (hcalls : ∀ u, writeCalls u es = []) (hdone : ∀ u, writesDone u es = [])
    (hxs : part (a.value .synchWriteAvail) (a.pc t) = [xs])
    (hpart : part (b.value .synchWriteAvail) (b.pc t) = [xs ++ [x]])
    (hopen : openWrite (b.pc t) = openWrite (a.pc t)) (hloop : InLoop (b.pc t))
    (hdevice : waits (b.pc t) = false ∧ Idle (b.value .synchWriteAvail) b.data ∨
      waits (b.pc t) = true ∧ Active (b.value .synchWriteAvail) b.data)
    (hdisplay : b.data.display = a.data.display ++ puts [x])
    (hasserts : ∀ u, .act u .assertFailed ∉ es) : WriteInv (tr ++ es) b := by
  have hsec : writeSections (tr ++ es) = Section.add x (writeSections tr) := Section.sectionsOf_item hx
  refine h.inside t hpc honly hcalls hdone ?_ hopen hloop hdevice ?_ hasserts
  · rw [hsec]
    exact h.sections.item ht (by rw [expected, hxs]) (by rw [expected, hpart])
      (expected_others hpc honly _ _) honly
  · rw [hsec, Section.flatMap_add puts puts_append (h.sections.owner t ht), hdisplay, h.display]

/-- The holder of the lock is not waiting, so nobody is. -/
theorem WriteInv.idle {w : ConsoleWrite} {loop : ℕ} (h : WriteInv tr a)
    (hu : ∀ t u, writing (a.pc t) = true → writing (a.pc u) = true → t = u)
    (hp : a.pc t = .writeLoop w loop) : Idle (a.value .synchWriteAvail) a.data := by
  rcases h.device with ⟨-, hi⟩ | ⟨⟨u, hwu⟩, -⟩
  · exact hi
  · have hut := hu u t (writing_of_waits hwu) (by simp [hp, writing])
    simp [hut, hp, waits] at hwu

/-- Nothing that the writers see. -/
structure Unnoticed (es : List (Event ConsoleSem ConsoleEvent)) : Prop where
  marks : es.filterMap writeMark = []
  calls : ∀ u, writeCalls u es = []
  done : ∀ u, writesDone u es = []
  asserts : ∀ u, .act u .assertFailed ∉ es

/-- Inside `SynchConsole::Write`. -/
def inWrite : ConsolePc → Bool
  | .writeLock _ | .writeLoop _ _ | .writeWait _ _ | .writeUnlock _ | .writeReturn _
  | .aborted => true
  | _ => false

theorem inWrite_of_outside (h : SynchConsole.outside p = true) : inWrite p = false := by
  cases p <;> simp_all [SynchConsole.outside, inWrite]

/-- A thread moves on without entering a call of `Write`, beginning a section or touching the
device. -/
theorem WriteInv.silent (h : WriteInv tr a) (t : Tid) (hes : Unnoticed es)
    (hv : b.value .synchWriteAvail = a.value .synchWriteAvail)
    (hbusy : b.data.putBusy = a.data.putBusy) (hints : b.data.writeInts = a.data.writeInts)
    (hdisplay : b.data.display = a.data.display) (hpc : ∀ u, u ≠ t → b.pc u = a.pc u)
    (hpart : ∀ v, part v (b.pc t) = part v (a.pc t))
    (hopen : openWrite (b.pc t) = openWrite (a.pc t)) (hloop : InLoop (b.pc t))
    (hwriting : writing (b.pc t) = true → writing (a.pc t) = true)
    (hwaits : waits (b.pc t) = waits (a.pc t)) : WriteInv (tr ++ es) b := by
  refine h.outside t hes.marks hv hbusy hints hdisplay hpc (fun u _ => hes.calls u)
    (fun u _ => hes.done u) ?_ ?_ hwriting hwaits hes.asserts
  · exact (h.writer t).frame (hes.calls t) (hes.done t) hopen hloop
  · rw [expected_of_done (hes.done t), expected, expected, hpart]

theorem WriteInv.elsewhere (h : WriteInv tr a) (t : Tid) (hes : Unnoticed es)
    (hv : b.value .synchWriteAvail = a.value .synchWriteAvail)
    (hbusy : b.data.putBusy = a.data.putBusy) (hints : b.data.writeInts = a.data.writeInts)
    (hdisplay : b.data.display = a.data.display) (hpc : ∀ u, u ≠ t → b.pc u = a.pc u)
    (hp : inWrite (a.pc t) = false) (hk : inWrite (b.pc t) = false) : WriteInv (tr ++ es) b := by
  have hnone : ∀ p, inWrite p = false →
      (∀ v, part v p = []) ∧ openWrite p = [] ∧ InLoop p ∧ writing p = false ∧ waits p = false := by
    intro p hp
    cases p <;> simp_all [inWrite, part, openWrite, InLoop, writing, waits]
  obtain ⟨hpa, hoa, -, hwa, hta⟩ := hnone _ hp
  obtain ⟨hpb, hob, hlb, hwb, htb⟩ := hnone _ hk
  exact h.silent t hes hv hbusy hints hdisplay hpc (fun v => by rw [hpa, hpb]) (by rw [hoa, hob])
    hlb (by simp [hwb]) (by rw [hta, htb])

/-- `PutChar` finds the device idle. -/
theorem WriteInv.put {w : ConsoleWrite} {loop : ℕ} (h : WriteInv tr a)
    (hi : Idle (a.value .synchWriteAvail) a.data) (hl : (loop : Int) < w.numBytes)
    (hp : a.pc t = .writeLoop w loop) (hk : b.pc t = .writeWait w loop)
    (hpc : ∀ u, u ≠ t → b.pc u = a.pc u) (honly : ∀ u, writing (b.pc u) = true → u = t)
    (hv : b.value = a.value)
    (hd : b.data = { a.data with
      display := a.data.display ++ [w.char loop hl], putBusy := true
      writeInts := a.data.writeInts + 1 }) :
    WriteInv (tr ++ [.act t (.putChar (w.char loop hl))]) b := by
  refine h.item (by simp [hp, writing]) rfl hpc honly (fun _ => rfl) (fun _ => rfl)
    (by rw [hp, part]) ?_ (by rw [hp, hk]; rfl) (by rw [hk]; exact hl)
    (.inr ⟨by rw [hk]; rfl, .busy (by rw [hd]) (by rw [hd, hi.writeInts]) (by rw [hv, hi.value])⟩)
    (by rw [hd]; rfl) (by simp)
  simp only [hk, part, hv, hi.value, if_true, bytes_getD hl]

/-- `synchWriteAvail->P()` returns: the device has reported this character. -/
theorem WriteInv.woken {w : ConsoleWrite} {loop : ℕ} (h : WriteInv tr a)
    (hv0 : a.value .synchWriteAvail ≠ 0) (hp : a.pc t = .writeWait w loop)
    (hk : b.pc t = .writeLoop w (loop + 1)) (hpc : ∀ u, u ≠ t → b.pc u = a.pc u)
    (honly : ∀ u, writing (b.pc u) = true → u = t)
    (hv : b.value = Function.update a.value .synchWriteAvail (decr (a.value .synchWriteAvail)))
    (hd : b.data = a.data) : WriteInv (tr ++ [.P t .synchWriteAvail]) b := by
  have hl : (loop : Int) < w.numBytes := by
    have hin := (h.writer t).inLoop
    rw [hp] at hin
    exact hin
  rcases h.device with ⟨hn, -⟩ | ⟨-, hactive⟩
  · have := hn t
    simp [hp, waits] at this
  · cases hactive with
    | busy _ _ h0 => exact absurd h0 hv0
    | signalled hb hi h1 =>
      refine h.item (by simp [hp, writing]) rfl hpc honly (fun _ => rfl) (fun _ => rfl)
        (by rw [hp, part]) ?_ (by rw [hp, hk]; rfl) ?_
        (.inl ⟨by rw [hk]; rfl, by rw [hd, hb], by rw [hd, hi], by simp [hv, h1, decr]⟩)
        (by simp [hd, puts]) (by simp)
      · rw [hk, part, ConsoleWrite.bytes_take_succ hl, script_append, bytes_getD hl]
        simp [h1, script]
      · rw [hk]
        simp only [InLoop]
        omega

theorem WriteInv.lock {w : ConsoleWrite} (h : WriteInv tr a) (hp : a.pc t = .writeLock w)
    (hk : b.pc t = .writeLoop w 0) (hpc : ∀ u, u ≠ t → b.pc u = a.pc u)
    (honly : ∀ u, writing (b.pc u) = true → u = t)
    (hv : b.value .synchWriteAvail = a.value .synchWriteAvail) (hd : b.data = a.data) :
    WriteInv (tr ++ [.P t .WLineBlock]) b := by
  have hsec : writeSections (tr ++ [.P t .WLineBlock]) = writeSections tr ++ [(t, [])] :=
    Section.sectionsOf_enter rfl
  have hi : Idle (a.value .synchWriteAvail) a.data := by
    rcases h.device with ⟨-, hi⟩ | ⟨⟨u, hwu⟩, -⟩
    · exact hi
    · have hut : u ≠ t := by
        rintro rfl
        simp [hp, waits] at hwu
      exact absurd (honly u (by rw [hpc u hut, writing_of_waits hwu])) hut
  refine h.inside t hpc honly (fun _ => rfl) (fun _ => rfl) ?_ (by rw [hp, hk]; rfl)
    (by rw [hk]; exact Nat.zero_le _) (.inl ⟨by rw [hk]; rfl, by rw [hv, hd]; exact hi⟩) ?_
    (by simp)
  · rw [hsec]
    refine h.sections.enter ?_ (expected_others hpc honly _ _) honly
    simp [expected, hp, hk, part, script]
  · simp [hsec, hd, h.display, puts]

theorem writeInv_move (h : WriteInv tr a)
    (hu : ∀ t u, writing (a.pc t) = true → writing (a.pc u) = true → t = u)
    (hu' : ∀ t u, writing (b.pc t) = true → writing (b.pc u) = true → t = u)
    (hm : Move t a.value a.data (a.pc t) es k b.value b.data)
    (hpc : b.pc = Function.update a.pc t k) : WriteInv (tr ++ es) b := by
  have hk : b.pc t = k := by simp [hpc]
  have hothers : ∀ u, u ≠ t → b.pc u = a.pc u := by
    intro u hut
    simp [hpc, hut]
  have honly : writing k = true → ∀ u, writing (b.pc u) = true → u = t :=
    fun hkt u hut => hu' u t hut (hk ▸ hkt)
  have hself := h.writer t
  generalize hp : a.pc t = p at hm hself
  generalize hv : b.value = v' at hm
  generalize hd : b.data = d' at hm
  cases hm with
  | put hl hb =>
    have hi := h.idle hu hp
    exact h.put hi hl hp hk hothers (honly rfl) hv hd
  | assertFails hb =>
    have hi := h.idle hu hp
    rw [hi.putBusy] at hb
    cases hb
  | woken hv0 => exact h.woken hv0 hp hk hothers (honly rfl) hv hd
  | lockWrite hv0 => exact h.lock hp hk hothers (honly rfl) (by simp [hv]) hd
  | callWrite w =>
    refine h.outside t rfl (by rw [hv]) (by rw [hd]) (by rw [hd]) (by rw [hd]) hothers
      (fun u hut => by simp [writeCalls, Ne.symm hut]) (fun _ _ => rfl)
      ⟨?_, by simp [hk, InLoop]⟩ (by simp [expected, hp, hk, part, writesDone])
      (by simp [hk, writing]) (by simp [hp, hk, waits]) (by simp)
    simpa [writeCalls, writesDone, hk, openWrite] using hself.calls
  | returnWrite =>
    refine h.outside t rfl (by rw [hv]) (by rw [hd]) (by rw [hd]) (by rw [hd]) hothers
      (fun _ _ => rfl) (fun u hut => by simp [writesDone, Ne.symm hut])
      ⟨?_, by simp [hk, InLoop]⟩ (by simp [expected, hp, hk, part, writesDone])
      (by simp [hk, writing]) (by simp [hp, hk, waits]) (by simp)
    simpa [writeCalls, writesDone, hk, openWrite] using hself.calls
  | endWrite hl =>
    refine h.silent t ⟨rfl, fun _ => rfl, fun _ => rfl, by simp⟩ (by rw [hv]) (by rw [hd])
      (by rw [hd]) (by rw [hd]) hothers (fun v => ?_) (by rw [hp, hk]; rfl) (by simp [hk, InLoop])
      (by simp [hp, writing]) (by simp [hp, hk, waits])
    rw [hp, hk, part, part, List.take_of_length_le]
    rw [ConsoleWrite.length_bytes]
    omega
  | unlockWrite =>
    exact h.silent t ⟨rfl, fun _ => rfl, fun _ => rfl, by simp⟩ (by simp [hv]) (by rw [hd])
      (by rw [hd]) (by rw [hd]) hothers (fun v => by rw [hp, hk]; rfl) (by rw [hp, hk]; rfl)
      (by simp [hk, InLoop]) (by simp [hk, writing]) (by simp [hp, hk, waits])
  | roam hp' hk' =>
    exact h.elsewhere t ⟨rfl, fun _ => rfl, fun _ => rfl, by simp⟩ (by rw [hv]) (by rw [hd])
      (by rw [hd]) (by rw [hd]) hothers (by rw [hp, inWrite_of_outside hp'])
      (by rw [hk, inWrite_of_outside hk'])
  | _ =>
    -- inside `Read`
    exact h.elsewhere t ⟨rfl, fun _ => rfl, fun _ => rfl, by simp⟩ (by simp [hv]) (by simp [hd])
      (by simp [hd]) (by simp [hd]) hothers (by rw [hp]; rfl) (by rw [hk]; rfl)

/-- No thread moves. -/
theorem WriteInv.still (h : WriteInv tr a) (hes : Unnoticed es)
    (hv : b.value .synchWriteAvail = a.value .synchWriteAvail)
    (hbusy : b.data.putBusy = a.data.putBusy) (hints : b.data.writeInts = a.data.writeInts)
    (hdisplay : b.data.display = a.data.display) (hpc : b.pc = a.pc) : WriteInv (tr ++ es) b :=
  h.silent 0 hes hv hbusy hints hdisplay (fun u _ => by rw [hpc]) (fun v => by rw [hpc])
    (by rw [hpc]) (by rw [hpc]; exact (h.writer 0).inLoop) (by rw [hpc]; exact id) (by rw [hpc])

/-- The device reports a character to the one thread that waits for it. -/
theorem WriteInv.writeDone (h : WriteInv tr a)
    (hu : ∀ t u, writing (a.pc t) = true → writing (a.pc u) = true → t = u)
    (hn : a.data.writeInts ≠ 0) (hpc : b.pc = a.pc)
    (hv : b.value = Function.update a.value .synchWriteAvail (incr (a.value .synchWriteAvail)))
    (hd : b.data = { a.data with writeInts := a.data.writeInts - 1, putBusy := false }) :
    WriteInv (tr ++ [.V none .synchWriteAvail]) b := by
  rcases h.device with ⟨-, hi⟩ | ⟨⟨t, hw⟩, hactive⟩
  · exact absurd hi.writeInts hn
  · cases hactive with
    | signalled _ hi _ => exact absurd hi hn
    | busy hb hi h0 =>
      have hwt := writing_of_waits hw
      have honly : ∀ u, writing (b.pc u) = true → u = t := by
        intro u hwu
        rw [hpc] at hwu
        exact hu u t hwu hwt
      cases hp : a.pc t <;> simp only [hp, waits, Bool.false_eq_true] at hw
      refine h.item hwt rfl (fun u _ => by rw [hpc]) honly (fun _ => rfl) (fun _ => rfl)
        (by rw [hp, part]) ?_ (by rw [hpc]) (by rw [hpc]; exact (h.writer t).inLoop)
        (.inr ⟨by rw [hpc, hp]; rfl,
          .signalled (by rw [hd]) (by rw [hd, hi]) (by simp [hv, h0, incr])⟩)
        (by simp [hd, puts]) (by simp)
      rw [hpc, hp, part]
      simp [hv, h0, incr]

theorem writeInv_fire (h : WriteInv tr a)
    (hu : ∀ t u, writing (a.pc t) = true → writing (a.pc u) = true → t = u)
    (hf : Fires a.value a.data es b.value b.data) (hpc : b.pc = a.pc) : WriteInv (tr ++ es) b := by
  generalize hv : b.value = v' at hf
  generalize hd : b.data = d' at hf
  cases hf with
  | nothing =>
    exact h.still ⟨rfl, fun _ => rfl, fun _ => rfl, by simp⟩ (by rw [hv]) (by rw [hd]) (by rw [hd])
      (by rw [hd]) hpc
  | writeDone hn => exact h.writeDone hu hn hpc hv hd
  | arrive he hk =>
    exact h.still ⟨rfl, fun _ => rfl, fun _ => rfl, by simp⟩ (by simp [hv]) (by rw [hd])
      (by rw [hd]) (by rw [hd]) hpc

theorem writeInv_run {input : List Byte}
    (h : (deviceAtomic (program input) Console.interrupt).Run tr a) : WriteInv tr a := by
  refine h.invariant ?_ ?_
  · rintro a rfl
    exact ⟨⟨fun _ => rfl, by simp [Program.initial, program, writing]⟩, fun _ => ⟨rfl, trivial⟩,
      .inl ⟨fun _ => rfl, rfl, rfl, rfl⟩, rfl, by simp⟩
  · intro tr a es b hr hi hs
    have hu := writing_unique hr
    cases does_deviceStep hs (fresh_deviceRun hr) with
    | move t k ht hm hpc => exact writeInv_move hi hu (writing_unique (hr.next hs)) hm hpc
    | fire hf hpc => exact writeInv_fire hi hu hf hpc

/-- What is seen of a call in progress is the beginning of what it has to do. -/
theorem part_prefix (hl : InLoop p) (v : Int) :
    part v p = [] ∨ ∃ w x, part v p = [x] ∧ openWrite p = [w] ∧ x <+: script w.bytes := by
  have htake : ∀ (w : ConsoleWrite) (n : ℕ), script (w.bytes.take n) <+: script w.bytes := by
    intro w n
    refine ⟨script (w.bytes.drop n), ?_⟩
    rw [← script_append, List.take_append_drop]
  cases p with
  | writeLoop w loop => exact .inr ⟨w, _, rfl, rfl, htake w loop⟩
  | writeWait w loop =>
    have hl : (loop : Int) < w.numBytes := hl
    refine .inr ⟨w, _, rfl, rfl, List.IsPrefix.trans ?_ (htake w (loop + 1))⟩
    rw [ConsoleWrite.bytes_take_succ hl, script_append, bytes_getD hl]
    refine List.prefix_append_right_inj _ |>.mpr ?_
    split <;> simp [script]
  | writeUnlock w => exact .inr ⟨w, _, rfl, rfl, List.prefix_rfl⟩
  | writeReturn w => exact .inr ⟨w, _, rfl, rfl, List.prefix_rfl⟩
  | _ => exact .inl rfl

theorem mem_writesDone {w : ConsoleWrite} {n : Int} (h : .act t (.wrote w n) ∈ tr) :
    w ∈ writesDone t tr := List.mem_filterMap.mpr ⟨_, h, by simp⟩

/-- The bytes of a call that has returned are on the display in one piece. -/
theorem WriteInv.shown {w : ConsoleWrite} (h : WriteInv tr a) (hw : w ∈ writesDone t tr) :
    w.bytes <:+: a.data.display := by
  have hkey : script w.bytes ∈ Section.ofKey t (writeSections tr) := by
    rw [h.sections.parts t]
    exact List.mem_append_left _ (List.mem_map_of_mem hw)
  have hmem : (t, script w.bytes) ∈ writeSections tr := Section.mem_ofKey.mp hkey
  obtain ⟨before, after, hsplit⟩ := List.append_of_mem hmem
  rw [h.display, hsplit, List.flatMap_append, List.flatMap_cons, puts_script]
  exact ⟨_, _, by rw [List.append_assoc]⟩

/-- Output is atomic. `ASSERT(putBusy == FALSE)` has not failed; the display shows what is put on
it in the sections, which follow each other as `WLineBlock` is held. Each thread has one section
for each of its calls that has returned, and in it every byte is put on the display, reported and
waited for once, in order; it has at most one more, the beginning of the same for the call it is
in. So what a call has written is in one piece. While nobody holds the lock, the device is idle
and no wakeup is left. -/
structure AtomicOutput (tr : List (KEvent ConsoleSem ConsoleEvent))
    (σ : Kernel ConsoleSem ConsolePc Console) : Prop where
  asserts : ∀ t, .sync (.act t .assertFailed) ∉ tr
  display : σ.data.display = (writeSections (synced tr)).flatMap fun c => puts c.2
  sections : ∀ t, ∃ rest, Section.ofKey t (writeSections (synced tr)) =
      (writesDone t (synced tr)).map (fun w => script w.bytes) ++ rest ∧
    (rest = [] ∨ ∃ w x, rest = [x] ∧ x <+: script w.bytes ∧
      writeCalls t (synced tr) = writesDone t (synced tr) ++ [w])
  calls : ∀ t, writesDone t (synced tr) <+: writeCalls t (synced tr)
  shown : ∀ t w n, .sync (.act t (.wrote w n)) ∈ tr → w.bytes <:+: σ.data.display
  left : (σ.sem .WLineBlock).value ≠ 0 →
    (σ.sem .synchWriteAvail).value = 0 ∧ σ.data.putBusy = false ∧ σ.data.writeInts = 0

/-- In every run of any number of threads, each call of `Write` is atomic. -/
theorem write_atomic {input : List Byte} {tr : List (KEvent ConsoleSem ConsoleEvent)}
    {σ : Kernel ConsoleSem ConsolePc Console}
    (h : (deviceKernel (program input) Console.interrupt).Run tr σ) : AtomicOutput tr σ := by
  have hrun := deviceAtomic_run h
  have hi := writeInv_run hrun
  refine ⟨fun t hm => hi.asserts t (mem_synced.mpr hm), hi.display, fun t => ?_, fun t => ?_,
    fun t w n hm => hi.shown (mem_writesDone (mem_synced.mpr hm)), ?_⟩
  · refine ⟨_, hi.sections.parts t, ?_⟩
    rcases part_prefix (hi.writer t).inLoop (σ.atomically.value .synchWriteAvail) with
      hp | ⟨w, x, hp, ho, hx⟩
    · exact .inl hp
    · refine .inr ⟨w, x, hp, hx, ?_⟩
      rw [← ho]
      exact (hi.writer t).calls
  · rw [(hi.writer t).calls]
    exact List.prefix_append _ _
  · intro hfree
    have hnobody : ∀ t, ¬Holds writing σ.atomically t := by
      rcases (writing_exclusive hrun).value with ⟨-, hn⟩ | ⟨h0, -⟩
      · exact hn
      · exact absurd h0 hfree
    rcases hi.device with ⟨-, hidle⟩ | ⟨⟨t, hw⟩, -⟩
    · exact ⟨hidle.value, hidle.putBusy, hidle.writeInts⟩
    · exact absurd (holds_of_inside (fresh_deviceRun hrun) rfl (writing_of_waits hw)) (hnobody t)

/-- The call `Write("AB", 2)`. -/
def writeAB : ConsoleWrite := ⟨[65, 66], 2, by decide⟩

/-- A thread writes two characters and sleeps after each. -/
theorem write_atomic_two : ∃ tr σ, (deviceKernel (program []) Console.interrupt).Run tr σ ∧
    AtomicOutput tr σ ∧ .sync (.act 0 (.wrote writeAB 2)) ∈ tr ∧ σ.data.display = [65, 66] := by
  obtain ⟨tr, σ, hr, _, hp⟩ := System.exists_run_of_exec (Kernel.boot (program []))
    (Kernel.deviceNext (program []) Console.interrupt)
    (turns (ConsoleChoice.write writeAB) 1 ++ turns ConsoleChoice.tick 7 ++
      DeviceAct.device ConsoleInt.writeDone :: turns ConsoleChoice.tick 9 ++
      DeviceAct.device ConsoleInt.writeDone :: turns ConsoleChoice.tick 9)
    (fun r => decide (KEvent.sync (.act 0 (.wrote writeAB 2)) ∈ r.2 ∧ r.1.data.display = [65, 66]))
    (by decide +kernel)
  have hp := of_decide_eq_true hp
  exact ⟨tr, σ, hr, write_atomic hr, hp⟩

end Nachos.SynchConsole
