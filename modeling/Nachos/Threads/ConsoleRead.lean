import Nachos.Lib.Section
import Nachos.Threads.SynchConsole

/-!
# Input from the console

A trace is cut into sections, one for each time `RLineBlock` is taken. The characters taken from
the device in a section are those that one call of `Read` consumes, and all of them together are
what the host has delivered, without the bytes that look like `EOF`.
-/
namespace Nachos

open Concurrent
open Bytes (Byte)

namespace ConsoleRead

/-- The bytes stored in `into`. -/
def stored (r : ConsoleRead) : List Byte := r.into.take r.loop

/-- Those, and the terminator if the line has ended on one. -/
def consumed (r : ConsoleRead) : List Byte := r.stored ++ if r.eolncond then [r.ch] else []

/-- `loop` bytes are stored, and the others are still zero. -/
structure Sound (r : ConsoleRead) : Prop where
  length : r.into.length = r.numBytes.toNat
  loop_le : r.loop ≤ r.into.length
  rest : r.into.drop r.loop = List.replicate (r.into.length - r.loop) 0
  terminator : r.eolncond = true → r.ch = 10 ∨ r.ch = 1

variable {r : ConsoleRead} {ch : Byte}

theorem sound_start (numBytes : Int) (ch : Byte) : (start numBytes ch).Sound where
  length := List.length_replicate
  loop_le := Nat.zero_le _
  rest := by simp [start]
  terminator h := by cases h

theorem Sound.length_stored (h : r.Sound) : r.stored.length = r.loop :=
  List.length_take_of_le h.loop_le

theorem Sound.into_eq (h : r.Sound) :
    r.into = r.stored ++ List.replicate (r.into.length - r.loop) 0 := by
  rw [← h.rest, stored, List.take_append_drop]

/-- The character is consumed, stored or not. -/
theorem consumed_store (hl : r.loop < r.into.length) (he : r.eolncond = false) :
    (r.store ch).consumed = r.consumed ++ [ch] := by
  unfold store
  split
  · simp [consumed, stored, he]
  · have hset : (r.into.set r.loop ch).take (r.loop + 1) = r.into.take r.loop ++ [ch] := by
      rw [List.take_succ_eq_append_getElem (by simpa using hl), List.take_set_of_le le_rfl]
      simp
    simp [consumed, stored, he, hset]

@[simp] theorem numBytes_store : (r.store ch).numBytes = r.numBytes := by
  unfold store
  split <;> rfl

theorem Sound.store (h : r.Sound) (hl : r.loop < r.into.length) (he : r.eolncond = false)
    (ch : Byte) : (r.store ch).Sound := by
  unfold ConsoleRead.store
  split
  · exact ⟨h.length, h.loop_le, h.rest, fun _ => ‹_›⟩
  · have hdrop : (r.into.set r.loop ch).drop (r.loop + 1) = r.into.drop (r.loop + 1) :=
      List.drop_set_of_lt (Nat.lt_succ_self _)
    refine ⟨by simpa using h.length, by simpa using Nat.succ_le_of_lt hl, ?_, by simp [he]⟩
    have hrest := congrArg (List.drop 1) h.rest
    rw [List.drop_drop, List.drop_replicate] at hrest
    simpa [hdrop, Nat.sub_sub] using hrest

end ConsoleRead

namespace SynchConsole

def readMark : Event ConsoleSem ConsoleEvent → Option (Section.Mark Tid Byte)
  | .P t .RLineBlock => some (.enter t)
  | .act _ (.getChar ch) => if ch = EOF then none else some (.item ch)
  | _ => none

/-- The sections, in the order in which `RLineBlock` is held. -/
def readSections (tr : List (Event ConsoleSem ConsoleEvent)) : List (Tid × List Byte) :=
  Section.sectionsOf readMark tr

/-- What `t` has asked for in its calls of `Read`. -/
def readCalls (t : Tid) (tr : List (Event ConsoleSem ConsoleEvent)) : List Int :=
  tr.filterMap fun | .act t' (.read numBytes) => if t' = t then some numBytes else none | _ => none

/-- The calls of `Read` by `t` that have returned. -/
def readsDone (t : Tid) (tr : List (Event ConsoleSem ConsoleEvent)) : List ConsoleRead :=
  tr.filterMap fun | .act t' (.readDone r _) => if t' = t then some r else none | _ => none

/-- The call a thread is in, once it has taken the lock. -/
def openRead : ConsolePc → List ConsoleRead
  | .readLoop r | .readWait r | .readChar r | .readUnlock r | .readReturn r => [r]
  | _ => []

/-- What it has asked for in a call that it is in. -/
def asked : ConsolePc → List Int
  | .readLock r => [r.numBytes]
  | p => (openRead p).map (·.numBytes)

/-- What is known of a call at each point of its code. -/
def InRead : ConsolePc → Prop
  | .readLock r => r.Sound ∧ r.consumed = []
  | .readLoop r | .readUnlock r | .readReturn r => r.Sound
  | .readWait r | .readChar r => r.Sound ∧ (r.loop : Int) < r.numBytes ∧ r.eolncond = false
  | _ => True

/-- The character that waits in the device. -/
def buffered (d : Console) : List Byte := if d.incoming = EOF then [] else [d.incoming]

variable {tr es : List (Event ConsoleSem ConsoleEvent)} {a b : Atomic} {t : Tid}
  {p k : ConsolePc} {input : List Byte}

@[simp] theorem readsDone_append : readsDone t (tr ++ es) = readsDone t tr ++ readsDone t es :=
  List.filterMap_append

@[simp] theorem readCalls_append : readCalls t (tr ++ es) = readCalls t tr ++ readCalls t es :=
  List.filterMap_append

/-- A move tells about the calls of the thread that makes it. -/
theorem asked_move {v v' : ConsoleSem → Int} {d d' : Console} (hm : Move t v d p es k v' d') :
    asked p ++ readCalls t es = (readsDone t es).map (·.numBytes) ++ asked k ∧
      ∀ u, u ≠ t → readCalls u es = [] ∧ readsDone u es = [] := by
  cases hm with
  | roam hp hk =>
    have hnone : ∀ p, SynchConsole.outside p = true → asked p = [] := by
      intro p hp
      cases p <;> simp_all [SynchConsole.outside, asked, openRead]
    rw [hnone _ hp, hnone _ hk]
    exact ⟨rfl, fun _ _ => ⟨rfl, rfl⟩⟩
  | callRead numBytes ch =>
    refine ⟨by simp [asked, openRead, readCalls, readsDone, ConsoleRead.start], fun u hut => ?_⟩
    exact ⟨by simp [readCalls, Ne.symm hut], rfl⟩
  | returnRead =>
    refine ⟨by simp [asked, openRead, readCalls, readsDone], fun u hut => ?_⟩
    exact ⟨rfl, by simp [readsDone, Ne.symm hut]⟩
  | get he =>
    exact ⟨by simp [asked, openRead, readCalls, readsDone], fun _ _ => ⟨rfl, rfl⟩⟩
  | _ => exact ⟨rfl, fun _ _ => ⟨rfl, rfl⟩⟩

theorem asked_fire {v v' : ConsoleSem → Int} {d d' : Console} (hf : Fires v d es v' d') (u : Tid) :
    readCalls u es = [] ∧ readsDone u es = [] := by
  cases hf <;> exact ⟨rfl, rfl⟩

/-- A call that has returned, or is still open, is one that the thread has made. -/
theorem asked_run (h : (deviceAtomic (program input) Console.interrupt).Run tr a) (t : Tid) :
    readCalls t tr = (readsDone t tr).map (·.numBytes) ++ asked (a.pc t) := by
  refine h.invariant (I := fun tr a => readCalls t tr =
    (readsDone t tr).map (·.numBytes) ++ asked (a.pc t)) ?_ ?_
  · rintro a rfl
    rfl
  · intro tr a es b hr hi hs
    cases does_deviceStep hs (fresh_deviceRun hr) with
    | move u k hu hm hpc =>
      obtain ⟨hself, hothers⟩ := asked_move hm
      by_cases hut : t = u
      · subst hut
        rw [readCalls_append, hi, List.append_assoc, hself]
        simp [hpc]
      · obtain ⟨hcalls, hdone⟩ := hothers t hut
        simp [hcalls, hdone, hi, hpc, hut]
    | fire hf hpc =>
      obtain ⟨hcalls, hdone⟩ := asked_fire hf t
      simp [hcalls, hdone, hi, hpc]

/-- The sections a thread should have, by what it has done and where it is. -/
def consumedBy (tr : List (Event ConsoleSem ConsoleEvent)) (t : Tid) (p : ConsolePc) :
    List (List Byte) :=
  (readsDone t tr ++ openRead p).map ConsoleRead.consumed

/-- Every byte that has been delivered and is not `EOF` is in a section or waits in the device. -/
def Delivered (input : List Byte) (tr : List (Event ConsoleSem ConsoleEvent)) (d : Console) :
    Prop :=
  ∃ read, input = read ++ d.keyboard ∧
    (readSections tr).flatMap Prod.snd ++ buffered d = read.filter (· ≠ EOF)

structure ReadInv (input : List Byte) (tr : List (Event ConsoleSem ConsoleEvent)) (a : Atomic) :
    Prop where
  sections : Section.Sectioned (readSections tr) (fun t => reading (a.pc t))
    fun t => consumedBy tr t (a.pc t)
  known : ∀ t, InRead (a.pc t)
  delivered : Delivered input tr a.data
  done : ∀ t r n, .act t (.readDone r n) ∈ tr → r.Sound ∧ n = r.result

theorem consumedBy_of_done (h : readsDone t es = []) :
    consumedBy (tr ++ es) t p = consumedBy tr t p := by
  simp [consumedBy, h]

/-- A step outside of all sections: at most one thread moves. -/
theorem ReadInv.outside (h : ReadInv input tr a) (t : Tid) (hes : es.filterMap readMark = [])
    (hin : b.data.incoming = a.data.incoming) (hkeys : b.data.keyboard = a.data.keyboard)
    (hpc : ∀ u, u ≠ t → b.pc u = a.pc u) (hothers : ∀ u, u ≠ t → readsDone u es = [])
    (hself : InRead (b.pc t))
    (hconsumed : consumedBy (tr ++ es) t (b.pc t) = consumedBy tr t (a.pc t))
    (hreading : reading (b.pc t) = true → reading (a.pc t) = true)
    (hdone : ∀ u r n, .act u (.readDone r n) ∈ es → r.Sound ∧ n = r.result) :
    ReadInv input (tr ++ es) b := by
  have hsec : readSections (tr ++ es) = readSections tr := Section.sectionsOf_none hes
  refine ⟨?_, ?_, ?_, ?_⟩
  · rw [hsec]
    refine h.sections.keep (fun u => ?_) fun u hu => ?_
    · by_cases hut : u = t
      · rw [hut, hconsumed]
      · rw [hpc u hut, consumedBy_of_done (hothers u hut)]
    · by_cases hut : u = t
      · subst hut
        exact hreading hu
      · exact hpc u hut ▸ hu
  · intro u
    by_cases hut : u = t
    · rw [hut]
      exact hself
    · rw [hpc u hut]
      exact h.known u
  · simpa only [Delivered, buffered, hsec, hin, hkeys] using h.delivered
  · intro u r n hm
    rcases List.mem_append.mp hm with hm | hm
    · exact h.done u r n hm
    · exact hdone u r n hm

/-- A step in the section of `t`. -/
theorem ReadInv.inside (h : ReadInv input tr a) (t : Tid) (hpc : ∀ u, u ≠ t → b.pc u = a.pc u)
    (hdone : ∀ u, readsDone u es = []) (hself : InRead (b.pc t))
    (hsections : Section.Sectioned (readSections (tr ++ es)) (fun u => reading (b.pc u))
      fun u => consumedBy tr u (b.pc u))
    (hdelivered : Delivered input (tr ++ es) b.data)
    (hnone : ∀ u r n, .act u (.readDone r n) ∉ es) : ReadInv input (tr ++ es) b := by
  refine ⟨?_, ?_, hdelivered, ?_⟩
  · exact hsections.keep (fun u => consumedBy_of_done (hdone u)) fun _ => id
  · intro u
    by_cases hut : u = t
    · rw [hut]
      exact hself
    · rw [hpc u hut]
      exact h.known u
  · intro u r n hm
    rcases List.mem_append.mp hm with hm | hm
    · exact h.done u r n hm
    · exact absurd hm (hnone u r n)

theorem ReadInv.lock {r : ConsoleRead} (h : ReadInv input tr a) (hp : a.pc t = .readLock r)
    (hk : b.pc t = .readLoop r) (hpc : ∀ u, u ≠ t → b.pc u = a.pc u)
    (honly : ∀ u, reading (b.pc u) = true → u = t) (hd : b.data = a.data) :
    ReadInv input (tr ++ [.P t .RLineBlock]) b := by
  have hsec : readSections (tr ++ [.P t .RLineBlock]) = readSections tr ++ [(t, [])] :=
    Section.sectionsOf_enter rfl
  have hin := h.known t
  rw [hp] at hin
  obtain ⟨hsound, hempty⟩ := hin
  refine h.inside t hpc (fun _ => rfl) (by rw [hk]; exact hsound) ?_ ?_ (by simp)
  · rw [hsec]
    refine h.sections.enter ?_ (fun u hut => by rw [hpc u hut]) honly
    simp [consumedBy, hp, hk, openRead, hempty]
  · simpa [Delivered, hsec, hd] using h.delivered

/-- `GetChar` takes the character that waits. -/
theorem ReadInv.get {r : ConsoleRead} (h : ReadInv input tr a) (he : a.data.incoming ≠ EOF)
    (hp : a.pc t = .readChar r) (hk : b.pc t = .readLoop (r.store a.data.incoming))
    (hpc : ∀ u, u ≠ t → b.pc u = a.pc u) (honly : ∀ u, reading (b.pc u) = true → u = t)
    (hd : b.data = { a.data with incoming := EOF }) :
    ReadInv input (tr ++ [.act t (.getChar a.data.incoming)]) b := by
  have hsec : readSections (tr ++ [.act t (.getChar a.data.incoming)]) =
      Section.add a.data.incoming (readSections tr) := Section.sectionsOf_item (by simp [readMark, he])
  have hreading : reading (a.pc t) = true := by simp [hp, reading]
  have hin := h.known t
  rw [hp] at hin
  obtain ⟨hsound, hlt, heoln⟩ := hin
  have hl : r.loop < r.into.length := by
    rw [hsound.length]
    omega
  refine h.inside t hpc (fun _ => rfl) (by rw [hk]; exact hsound.store hl heoln _) ?_ ?_ (by simp)
  · rw [hsec]
    have hbefore : consumedBy tr t (a.pc t) =
        (readsDone t tr).map ConsoleRead.consumed ++ [r.consumed] := by
      simp [consumedBy, hp, openRead]
    have hafter : consumedBy tr t (b.pc t) =
        (readsDone t tr).map ConsoleRead.consumed ++ [r.consumed ++ [a.data.incoming]] := by
      simp [consumedBy, hk, openRead, ConsoleRead.consumed_store hl heoln]
    exact h.sections.item hreading hbefore hafter (fun u hut => by rw [hpc u hut]) honly
  · obtain ⟨read, hinput, heq⟩ := h.delivered
    refine ⟨read, by rw [hd, hinput], ?_⟩
    have hflat : (Section.add a.data.incoming (readSections tr)).flatMap Prod.snd =
        (readSections tr).flatMap Prod.snd ++ [a.data.incoming] :=
      Section.flatMap_add id (fun _ _ => rfl) (h.sections.owner t hreading)
    rw [hsec, hflat, ← heq, hd]
    simp [buffered, he]

/-- Inside `SynchConsole::Read`. -/
def inRead : ConsolePc → Bool
  | .readLock _ | .readLoop _ | .readWait _ | .readChar _ | .readUnlock _ | .readReturn _ => true
  | _ => false

theorem inRead_of_outside (h : SynchConsole.outside p = true) : inRead p = false := by
  cases p <;> simp_all [SynchConsole.outside, inRead]

/-- A thread moves on without taking a character or returning from a call of `Read`. -/
theorem ReadInv.silent (h : ReadInv input tr a) (t : Tid) (hes : es.filterMap readMark = [])
    (hnone : ∀ u r n, .act u (.readDone r n) ∉ es) (hdone : ∀ u, readsDone u es = [])
    (hin : b.data.incoming = a.data.incoming) (hkeys : b.data.keyboard = a.data.keyboard)
    (hpc : ∀ u, u ≠ t → b.pc u = a.pc u)
    (hopen : (openRead (b.pc t)).map ConsoleRead.consumed =
      (openRead (a.pc t)).map ConsoleRead.consumed)
    (hInRead : InRead (b.pc t)) (hreading : reading (b.pc t) = true → reading (a.pc t) = true) :
    ReadInv input (tr ++ es) b := by
  refine h.outside t hes hin hkeys hpc (fun u _ => hdone u) hInRead ?_ hreading
    fun u r n hm => absurd hm (hnone u r n)
  rw [consumedBy_of_done (hdone t), consumedBy, consumedBy, List.map_append, List.map_append, hopen]

theorem ReadInv.elsewhere (h : ReadInv input tr a) (t : Tid) (hes : es.filterMap readMark = [])
    (hnone : ∀ u r n, .act u (.readDone r n) ∉ es) (hdone : ∀ u, readsDone u es = [])
    (hin : b.data.incoming = a.data.incoming) (hkeys : b.data.keyboard = a.data.keyboard)
    (hpc : ∀ u, u ≠ t → b.pc u = a.pc u) (hp : inRead (a.pc t) = false)
    (hk : inRead (b.pc t) = false) : ReadInv input (tr ++ es) b := by
  have hnot : ∀ p, inRead p = false → openRead p = [] ∧ InRead p ∧ reading p = false := by
    intro p hp
    cases p <;> simp_all [inRead, openRead, InRead, reading]
  obtain ⟨hpa, -, -⟩ := hnot _ hp
  obtain ⟨hpb, hib, hrb⟩ := hnot _ hk
  exact h.silent t hes hnone hdone hin hkeys hpc (by rw [hpa, hpb]) hib (by simp [hrb])

/-- `Read` returns what it has counted. -/
theorem ReadInv.return {r : ConsoleRead} (h : ReadInv input tr a) (hp : a.pc t = .readReturn r)
    (hk : b.pc t = .user) (hpc : ∀ u, u ≠ t → b.pc u = a.pc u) (hd : b.data = a.data) :
    ReadInv input (tr ++ [.act t (.readDone r r.result)]) b := by
  have hin := h.known t
  rw [hp] at hin
  refine h.outside t rfl (by rw [hd]) (by rw [hd]) hpc
    (fun u hut => by simp [readsDone, Ne.symm hut]) (by simp [hk, InRead])
    (by simp [consumedBy, readsDone, hp, hk, openRead]) (by simp [hk, reading]) ?_
  intro u r' n hm
  simp only [List.mem_singleton, Event.act.injEq, ConsoleEvent.readDone.injEq] at hm
  obtain ⟨-, rfl, rfl⟩ := hm
  exact ⟨hin, rfl⟩

theorem readInv_move (h : ReadInv input tr a)
    (hu : ∀ t u, reading (b.pc t) = true → reading (b.pc u) = true → t = u)
    (hm : Move t a.value a.data (a.pc t) es k b.value b.data)
    (hpc : b.pc = Function.update a.pc t k) : ReadInv input (tr ++ es) b := by
  have hk : b.pc t = k := by simp [hpc]
  have hothers : ∀ u, u ≠ t → b.pc u = a.pc u := by
    intro u hut
    simp [hpc, hut]
  have honly : reading k = true → ∀ u, reading (b.pc u) = true → u = t :=
    fun hkt u hut => hu u t hut (hk ▸ hkt)
  have hin := h.known t
  generalize hp : a.pc t = p at hm hin
  generalize hv : b.value = v' at hm
  generalize hd : b.data = d' at hm
  cases hm with
  | lockRead hv0 => exact h.lock hp hk hothers (honly rfl) hd
  | get he => exact h.get he hp hk hothers (honly rfl) hd
  | returnRead => exact h.return hp hk hothers hd
  | callRead numBytes ch =>
    refine h.silent t rfl (by simp) (fun _ => rfl) (by rw [hd]) (by rw [hd]) hothers
      (by rw [hp, hk]; rfl) ?_ (by simp [hk, reading])
    rw [hk]
    exact ⟨ConsoleRead.sound_start numBytes ch, rfl⟩
  | moreRead hl he =>
    refine h.silent t rfl (by simp) (fun _ => rfl) (by rw [hd]) (by rw [hd]) hothers
      (by rw [hp, hk]; rfl) ?_ (by simp [hp, reading])
    rw [hk]
    exact ⟨hin, hl, he⟩
  | endRead =>
    exact h.silent t rfl (by simp) (fun _ => rfl) (by rw [hd]) (by rw [hd]) hothers
      (by rw [hp, hk]; rfl) (by rw [hk]; exact hin) (by simp [hp, reading])
  | ready hv0 =>
    exact h.silent t rfl (by simp) (fun _ => rfl) (by rw [hd]) (by rw [hd]) hothers
      (by rw [hp, hk]; rfl) (by rw [hk]; exact hin) (by simp [hp, reading])
  | unlockRead =>
    exact h.silent t rfl (by simp) (fun _ => rfl) (by rw [hd]) (by rw [hd]) hothers
      (by rw [hp, hk]; rfl) (by rw [hk]; exact hin) (by simp [hk, reading])
  | getNone he =>
    -- a wakeup for a byte that was dropped, or for one taken before
    obtain ⟨hsound, hl, heoln⟩ := hin
    refine h.silent t (by simp [readMark]) (by simp) (fun _ => rfl) (by rw [hd]) (by rw [hd])
      hothers ?_ ?_ (by simp [hp, reading])
    · simp [hp, hk, openRead, ConsoleRead.consumed, ConsoleRead.stored, heoln]
    · rw [hk]
      exact ⟨⟨hsound.length, hsound.loop_le, hsound.rest, by simp [heoln]⟩, hl, heoln⟩
  | roam hp' hk' =>
    exact h.elsewhere t rfl (by simp) (fun _ => rfl) (by rw [hd]) (by rw [hd]) hothers
      (by rw [hp, inRead_of_outside hp']) (by rw [hk, inRead_of_outside hk'])
  | _ =>
    -- inside `Write`
    exact h.elsewhere t rfl (by simp) (fun _ => rfl) (by rw [hd]) (by rw [hd]) hothers
      (by rw [hp]; rfl) (by rw [hk]; rfl)

theorem readInv_fire (h : ReadInv input tr a) (hf : Fires a.value a.data es b.value b.data)
    (hpc : b.pc = a.pc) : ReadInv input (tr ++ es) b := by
  generalize hv : b.value = v' at hf
  generalize hd : b.data = d' at hf
  cases hf with
  | nothing | writeDone hn =>
    exact h.silent 0 rfl (by simp) (fun _ => rfl) (by rw [hd]) (by rw [hd])
      (fun _ _ => by rw [hpc]) (by rw [hpc]) (by rw [hpc]; exact h.known 0) (by rw [hpc]; exact id)
  | @arrive ch rest he hkey =>
    have hsec : readSections (tr ++ [.V none .synchReadAvail]) = readSections tr :=
      Section.sectionsOf_none rfl
    refine ⟨?_, by rw [hpc]; exact h.known, ?_, ?_⟩
    · rw [hsec, hpc]
      exact h.sections.keep (fun _ => consumedBy_of_done rfl) fun _ => id
    · obtain ⟨read, hinput, heq⟩ := h.delivered
      refine ⟨read ++ [ch], by simp [hd, hinput, hkey], ?_⟩
      rw [hsec, List.filter_append, ← heq, hd]
      by_cases hch : ch = EOF <;> simp [buffered, he, hch]
    · intro t r n hm
      exact h.done t r n (by simpa using hm)

theorem readInv_run (h : (deviceAtomic (program input) Console.interrupt).Run tr a) :
    ReadInv input tr a := by
  refine h.invariant ?_ ?_
  · rintro a rfl
    exact ⟨⟨fun _ => rfl, by simp [Program.initial, program, reading]⟩, fun _ => trivial,
      ⟨[], rfl, rfl⟩, by simp⟩
  · intro tr a es b hr hi hs
    cases does_deviceStep hs (fresh_deviceRun hr) with
    | move t k ht hm hpc => exact readInv_move hi (reading_unique (hr.next hs)) hm hpc
    | fire hf hpc => exact readInv_fire hi hf hpc

/-- Input is neither lost nor duplicated. The sections, which follow each other as `RLineBlock` is
held, begin the input without its `EOF` bytes. Each thread has one section for each of its calls
that has returned and one for the call it is in, with the bytes stored and then the terminator.
The calls are those it has made, in order, and one that returns `n ≥ 0` has stored `n` bytes, which
is no more than it was asked for. -/
structure ExactInput (input : List Byte) (tr : List (KEvent ConsoleSem ConsoleEvent))
    (σ : Kernel ConsoleSem ConsolePc Console) : Prop where
  stream : (readSections (synced tr)).flatMap Prod.snd <+: input.filter (· ≠ EOF)
  sections : ∀ t, Section.ofKey t (readSections (synced tr)) =
    (readsDone t (synced tr) ++ openRead (σ.pc t)).map fun r =>
      r.stored ++ if r.eolncond then [r.ch] else []
  calls : ∀ t, (readsDone t (synced tr)).map (·.numBytes) <+: readCalls t (synced tr)
  terminator : ∀ t, ∀ r ∈ readsDone t (synced tr) ++ openRead (σ.pc t),
    r.eolncond = true → r.ch = 10 ∨ r.ch = 1
  returned : ∀ t r n, .sync (.act t (.readDone r n)) ∈ tr → 1 ≤ r.numBytes → 0 ≤ n →
    (r.stored.length : Int) = n ∧ n ≤ r.numBytes ∧
      r.into = r.stored ++ List.replicate (r.into.length - r.stored.length) 0

theorem sound_of_openRead {r : ConsoleRead} (hin : InRead p) (hr : r ∈ openRead p) : r.Sound := by
  cases p <;> simp only [openRead, List.mem_singleton, List.not_mem_nil] at hr <;> subst hr
  · exact hin
  · exact hin.1
  · exact hin.1
  · exact hin
  · exact hin

theorem ReadInv.sound {r : ConsoleRead} (h : ReadInv input tr a)
    (hr : r ∈ readsDone t tr ++ openRead (a.pc t)) : r.Sound := by
  rcases List.mem_append.mp hr with hr | hr
  · obtain ⟨e, hm, he⟩ := List.mem_filterMap.mp hr
    split at he
    · split at he <;> cases he
      exact (h.done _ _ _ hm).1
    · cases he
  · exact sound_of_openRead (h.known t) hr

/-- In every run of any number of threads, for every input and every timing of the polls. -/
theorem read_exact {tr : List (KEvent ConsoleSem ConsoleEvent)}
    {σ : Kernel ConsoleSem ConsolePc Console}
    (h : (deviceKernel (program input) Console.interrupt).Run tr σ) : ExactInput input tr σ := by
  have hrun := deviceAtomic_run h
  have hi := readInv_run hrun
  refine ⟨?_, hi.sections.parts, fun t => ?_, fun t r hr => (hi.sound hr).terminator, ?_⟩
  · obtain ⟨read, hinput, heq⟩ := hi.delivered
    rw [hinput, List.filter_append, ← heq, List.append_assoc]
    exact List.prefix_append _ _
  · rw [asked_run hrun t]
    exact List.prefix_append _ _
  · intro t r n hm _ hn
    obtain ⟨hsound, rfl⟩ := hi.done t r n (mem_synced.mpr hm)
    have hlength := hsound.length
    have hle := hsound.loop_le
    have hresult : r.result = r.loop := by
      unfold ConsoleRead.result at hn ⊢
      split
      · rename_i hch
        rw [if_pos hch] at hn
        omega
      · rfl
    rw [hresult, hsound.length_stored]
    refine ⟨rfl, by omega, hsound.into_eq⟩

/-- The first byte is dropped, and the wakeup for it is spent on the second. -/
theorem read_exact_line : ∃ tr σ,
    (deviceKernel (program [EOF, 65, 10, 66]) Console.interrupt).Run tr σ ∧
    ExactInput [EOF, 65, 10, 66] tr σ ∧
    .sync (.act 0 (.readDone ⟨3, [65, 0, 0], 1, true, 10⟩ 1)) ∈ tr := by
  obtain ⟨tr, σ, hr, _, hp⟩ := System.exists_run_of_exec (Kernel.boot (program [EOF, 65, 10, 66]))
    (Kernel.deviceNext (program [EOF, 65, 10, 66]) Console.interrupt)
    (turns (ConsoleChoice.read 3 0) 1 ++ turns ConsoleChoice.tick 7 ++
      DeviceAct.device (ConsoleInt.readPoll true) :: turns ConsoleChoice.tick 4 ++
      DeviceAct.device (ConsoleInt.readPoll true) :: turns ConsoleChoice.tick 10 ++
      DeviceAct.device (ConsoleInt.readPoll true) :: turns ConsoleChoice.tick 10)
    (fun r => decide (KEvent.sync (.act 0 (.readDone ⟨3, [65, 0, 0], 1, true, 10⟩ 1)) ∈ r.2))
    (by decide +kernel)
  exact ⟨tr, σ, hr, read_exact hr, of_decide_eq_true hp⟩

end SynchConsole

end Nachos
