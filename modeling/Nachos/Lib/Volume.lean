import Nachos.Lib.BoundedMap
import Nachos.Lib.Bytes
import Nachos.Lib.Command

/-!
# Volumes

Named files on a medium with a number of units, and the handles through which their bytes are
read and written. What a new file holds at first is a part of the call that creates it. A call
has no meaning if it goes through a handle of a file that is gone, or asks for more than the
limits of the volume allow.
-/

open Bytes (Byte overlay)

/-- What there is of everything. Positions and sums with them stay below `bound`. -/
structure Limits where
  units : ℕ
  cost : ℕ → ℕ
  largest : ℕ
  handles : ℕ
  bound : Int

/-- What a call answers. -/
inductive Reply
  | done (ok : Bool)
  | handle (h : Option ℕ)
  | moved (value : Int) (bs : List Byte)
  deriving DecidableEq

/-- The bytes of a file, and where one is in it. -/
structure Cursor where
  contents : List Byte
  position : Int

/-- A request for an open file. -/
inductive Access
  | seek (position : Int)
  | read (numBytes : Int)
  | write (data : List Byte) (numBytes : Int)
  | readAt (numBytes position : Int)
  | writeAt (data : List Byte) (numBytes position : Int)
  | length
  | tell

namespace Access

/-- How many bytes there are for a request. -/
def granted (contents : List Byte) (numBytes position : Int) : ℕ :=
  min numBytes.toNat (contents.length - position.toNat)

/-- The bytes read, in range. -/
def deliver (bound : Int) (contents : List Byte) (numBytes position : Int) :
    Option (List Byte) :=
  if 0 ≤ position ∧ position + numBytes < bound then
    some ((contents.drop position.toNat).take numBytes.toNat)
  else none

/-- The bytes after a write, which does not make the file longer. -/
def replace (bound : Int) (contents data : List Byte) (numBytes position : Int) :
    Option (List Byte) :=
  if (0 ≤ position ∧ position + numBytes < bound) ∧
      granted contents numBytes position ≤ data.length then
    some (overlay contents position.toNat (data.take (granted contents numBytes position)))
  else none

def run (bound : Int) (c : Cursor) : Access → Option (Reply × Cursor)
  | seek position => some (.moved 0 [], { c with position := position })
  | read numBytes => (deliver bound c.contents numBytes c.position).map fun bs =>
    (.moved bs.length bs, { c with position := c.position + bs.length })
  | write data numBytes => (replace bound c.contents data numBytes c.position).map fun contents =>
    let n := granted c.contents numBytes c.position
    (.moved n [], ⟨contents, c.position + n⟩)
  | readAt numBytes position => (deliver bound c.contents numBytes position).map fun bs =>
    (.moved bs.length bs, c)
  | writeAt data numBytes position =>
    (replace bound c.contents data numBytes position).map fun contents =>
      (.moved (granted c.contents numBytes position) [], { c with contents := contents })
  | length => some (.moved c.contents.length [], c)
  | tell => some (.moved c.position [], c)

/-- The request is for a write. -/
def writes : Access → Bool
  | write .. | writeAt .. => true
  | _ => false

variable {bound : Int} {contents contents' data : List Byte} {n p : Int} {c c' : Cursor}
  {op : Access} {r : Reply}

theorem length_replace (h : replace bound contents data n p = some contents') :
    contents'.length = contents.length := by
  unfold replace at h
  split at h
  · rename_i hin
    cases h
    by_cases hzero : granted contents n p = 0
    · rw [hzero, List.take_zero, Bytes.overlay_nil]
    · apply Bytes.length_overlay
      rw [List.length_take, granted] at *
      omega
  · cases h

/-- What has been written is read. -/
theorem deliver_replace (h : replace bound contents data n p = some contents') :
    deliver bound contents' n p = some (data.take (granted contents n p)) := by
  have hlength := length_replace h
  unfold replace at h
  split at h
  · rename_i hin
    cases h
    rw [deliver, if_pos hin.1, Option.some.injEq]
    generalize hg : granted contents n p = g at *
    have hdata : (data.take g).length = g := by rw [List.length_take]; omega
    by_cases hle : p.toNat ≤ contents.length
    · have hdrop : (overlay contents p.toNat (data.take g)).drop p.toNat =
          data.take g ++ contents.drop (p.toNat + g) := by
        rw [overlay, List.append_assoc,
          List.drop_left' (by rw [List.length_take, Nat.min_eq_left hle]), hdata]
      rw [granted] at hg
      rw [hdrop, List.take_append, hdata]
      by_cases hfit : n.toNat ≤ contents.length - p.toNat
      · rw [List.take_of_length_le (by omega), show n.toNat - g = 0 by omega, List.take_zero,
          List.append_nil]
      · rw [List.take_of_length_le (by omega), List.drop_of_length_le (by omega), List.take_nil,
          List.append_nil]
    · rw [granted] at hg
      obtain rfl : g = 0 := by omega
      rw [List.drop_of_length_le (by omega), List.take_nil, List.take_zero]
  · cases h

/-- No request changes the length of a file. -/
theorem length_run (h : op.run bound c = some (r, c')) :
    c'.contents.length = c.contents.length := by
  cases op with
  | seek | length | tell =>
    cases h
    rfl
  | read | readAt =>
    obtain ⟨bs, -, heq⟩ := Option.map_eq_some_iff.mp h
    cases heq
    rfl
  | write | writeAt =>
    obtain ⟨bs, hbs, heq⟩ := Option.map_eq_some_iff.mp h
    cases heq
    exact length_replace hbs

/-- Only a write changes its bytes. -/
theorem contents_run (h : op.run bound c = some (r, c')) (hw : op.writes = false) :
    c'.contents = c.contents := by
  cases op with
  | seek | length | tell =>
    cases h
    rfl
  | read | readAt =>
    obtain ⟨bs, -, heq⟩ := Option.map_eq_some_iff.mp h
    cases heq
    rfl
  | write | writeAt => cases hw

end Access

/-- The file of a handle is unknown once it has been removed. -/
structure Handle (κ : Type) where
  file : Option κ
  position : Int

/-- The handles have numbers, in the order in which they were made. -/
structure Volume (κ : Type) (size : ℕ) where
  files : BoundedMap κ (List Byte) size
  handles : List (Option (Handle κ))

namespace Volume

variable {κ : Type} [DecidableEq κ] {size : ℕ}

/-- No files, and nothing open. -/
def empty (κ : Type) (size : ℕ) : Volume κ size := ⟨.empty κ _ size, []⟩

/-- A call. A volume is started anew with some files of its own. -/
inductive Call (κ : Type)
  | create (k : κ) (contents : List Byte)
  | remove (k : κ)
  | open' (k : κ)
  | access (a : ℕ) (op : Access)
  | close (a : ℕ)
  | restart (console : List κ)

/-- The units that are taken. -/
def used (l : Limits) (v : Volume κ size) : ℕ := v.files.total fun bs => l.cost bs.length

/-- A new file, if there is room for it. -/
def add (l : Limits) (v : Volume κ size) (k : κ) (contents : List Byte) :
    Option (Volume κ size) :=
  if v.used l + l.cost contents.length ≤ l.units then
    (v.files.add k contents).map fun files => { v with files := files }
  else none

/-- The handles of a file that is removed. -/
def forget (k : κ) (h : Handle κ) : Handle κ :=
  if h.file = some k then { h with file := none } else h

def remove (v : Volume κ size) (k : κ) : Option (Volume κ size) :=
  (v.files.remove k).map fun files => ⟨files, v.handles.map (Option.map (forget k))⟩

def openFile (v : Volume κ size) (k : κ) : Reply × Volume κ size :=
  if (v.files.get k).isSome then
    (.handle (some v.handles.length), { v with handles := v.handles ++ [some ⟨some k, 0⟩] })
  else (.handle none, v)

/-- A request through a handle. -/
def accessFile (l : Limits) (v : Volume κ size) (a : ℕ) (op : Access) :
    Option (Reply × Volume κ size) := do
  let h ← (v.handles[a]?).join
  let k ← h.file
  let contents ← v.files.get k
  let (r, c) ← op.run l.bound ⟨contents, h.position⟩
  some (r, ⟨v.files.set k c.contents, v.handles.set a (some ⟨some k, c.position⟩)⟩)

/-- All handles are gone. The volume's own files are opened if they are there, and created if
they are not. -/
def restart (l : Limits) (v : Volume κ size) (console : List κ) : Volume κ size :=
  let v := console.foldl (fun v k => (v.openFile k).2) { v with handles := [] }
  console.foldl (fun v k => (v.add l k []).getD v) v

/-- One call. -/
def step (l : Limits) : Call κ → Command (Volume κ size) Reply
  | .create k contents, v =>
    if contents.length ≤ l.largest then
      some (.done (v.add l k contents).isSome, (v.add l k contents).getD v)
    else none
  | .remove k, v => some (.done (v.remove k).isSome, (v.remove k).getD v)
  | .open' k, v => if v.handles.length < l.handles then some (v.openFile k) else none
  | .access a op, v => v.accessFile l a op
  | .close a, v =>
    match (v.handles[a]?).join with
    | some _ => some (.done true, { v with handles := v.handles.set a none })
    | none => none
  | .restart console, v => some (.done true, v.restart l console)

variable {l : Limits} {v v' : Volume κ size} {k : κ} {contents : List Byte}

theorem handles_add (h : v.add l k contents = some v') : v'.handles = v.handles := by
  unfold add at h
  split at h
  · obtain ⟨files, -, rfl⟩ := Option.map_eq_some_iff.mp h
    rfl
  · cases h

/-- A request through a handle of a file that is there. -/
theorem accessFile_eq {a : ℕ} {op : Access} {p : Int}
    (ha : v.handles[a]? = some (some ⟨some k, p⟩)) (hget : v.files.get k = some contents) :
    v.accessFile l a op = (op.run l.bound ⟨contents, p⟩).map fun x =>
      (x.1, ⟨v.files.set k x.2.contents, v.handles.set a (some ⟨some k, x.2.position⟩)⟩) := by
  rw [accessFile, ha]
  show (v.files.get k).bind _ = _
  rw [hget]
  show (op.run l.bound ⟨contents, p⟩).bind _ = _
  rw [Option.map_eq_bind]
  rfl

theorem openFile_of_get (hget : v.files.get k = some contents) : v.openFile k =
    (.handle (some v.handles.length),
      { v with handles := v.handles ++ [some ⟨some k, 0⟩] }) := by
  rw [openFile, hget]
  rfl

/-- A request through a handle that is new. -/
theorem accessFile_openFile {op : Access} {r : Reply} {c : Cursor}
    (hget : v.files.get k = some contents) (hrun : op.run l.bound ⟨contents, 0⟩ = some (r, c)) :
    ∃ v', (v.openFile k).2.accessFile l v.handles.length op = some (r, v') := by
  have hnew : (v.openFile k).2.handles[v.handles.length]? = some (some ⟨some k, 0⟩) := by
    rw [openFile_of_get hget]
    exact List.getElem?_concat_length
  have hfiles : (v.openFile k).2.files.get k = some contents := by
    rw [openFile_of_get hget]
    exact hget
  rw [accessFile_eq hnew hfiles, hrun]
  exact ⟨_, rfl⟩

theorem length_openFile_le : (v.openFile k).2.handles.length ≤ v.handles.length + 1 := by
  unfold openFile
  split
  · simp
  · exact Nat.le_succ _

@[simp] theorem handles_getD_add : ((v.add l k contents).getD v).handles = v.handles := by
  cases h : v.add l k contents with
  | none => rfl
  | some v' => exact handles_add h

/-- After a restart there are no handles but those of the volume's own files. -/
theorem length_restart_le (console : List κ) :
    (v.restart l console).handles.length ≤ console.length := by
  have hopen : ∀ (ks : List κ) (v : Volume κ size),
      (ks.foldl (fun v k => (v.openFile k).2) v).handles.length ≤ v.handles.length + ks.length := by
    intro ks
    induction ks with
    | nil => exact fun v => le_rfl
    | cons k ks ih =>
      intro v
      have hone := length_openFile_le (v := v) (k := k)
      have hrest := ih (v.openFile k).2
      rw [List.foldl_cons, List.length_cons]
      omega
  have hadd : ∀ (ks : List κ) (v : Volume κ size),
      (ks.foldl (fun v k => (v.add l k []).getD v) v).handles = v.handles := by
    intro ks
    induction ks with
    | nil => exact fun v => rfl
    | cons k ks ih =>
      intro v
      rw [List.foldl_cons, ih, handles_getD_add]
  rw [restart, hadd]
  simpa using hopen console { v with handles := [] }

/-! ## Files that are left alone -/

/-- The call does not remove the file, and does not write through one of its handles. -/
def Call.Spares (k : κ) (v : Volume κ size) : Call κ → Prop
  | .remove k' => k' ≠ k
  | .access a op => op.writes = true → ∀ h, v.handles[a]? = some (some h) → h.file ≠ some k
  | _ => True

/-- So do all calls, one after the other. -/
def Sparing (l : Limits) (k : κ) : List (Call κ) → Volume κ size → Prop
  | [], _ => True
  | c :: cs, v => c.Spares k v ∧ ∀ r v', step l c v = some (r, v') → Sparing l k cs v'

variable {k' : κ} {bs : List Byte} {c : Call κ} {cs : List (Call κ)} {r : Reply}
  {answers : List Reply}

theorem get_add (h : v.files.get k = some bs) :
    ((v.add l k' contents).getD v).files.get k = some bs := by
  cases hv : v.add l k' contents with
  | none => exact h
  | some v' =>
    unfold add at hv
    split at hv
    · obtain ⟨files, hadd, rfl⟩ := Option.map_eq_some_iff.mp hv
      rw [Option.getD_some, BoundedMap.get_add hadd, if_neg]
      · exact h
      · rintro rfl
        rw [BoundedMap.add_eq_none_iff.mpr (.inl (by simp [h]))] at hadd
        cases hadd
    · cases hv

@[simp] theorem files_openFile : (v.openFile k).2.files = v.files := by
  unfold openFile
  split <;> rfl

theorem files_openAll (ks : List κ) :
    (ks.foldl (fun v k => (v.openFile k).2) v).files = v.files := by
  induction ks generalizing v with
  | nil => rfl
  | cons k ks ih => rw [List.foldl_cons, ih, files_openFile]

theorem get_addAll (ks : List κ) (h : v.files.get k = some bs) :
    (ks.foldl (fun v k => (v.add l k []).getD v) v).files.get k = some bs := by
  induction ks generalizing v with
  | nil => exact h
  | cons k' ks ih => exact ih (get_add h)

/-- A file that is spared by a call is as it was. -/
theorem get_step (hc : c.Spares k v) (hstep : step l c v = some (r, v'))
    (h : v.files.get k = some bs) : v'.files.get k = some bs := by
  cases c with
  | create k' contents =>
    simp only [step] at hstep
    split at hstep
    · cases hstep
      exact get_add h
    · cases hstep
  | remove k' =>
    cases hstep
    cases hv : v.remove k' with
    | none => exact h
    | some v' =>
      obtain ⟨files, hremove, rfl⟩ := Option.map_eq_some_iff.mp hv
      rw [Option.getD_some, BoundedMap.get_remove hremove, if_neg (Ne.symm hc)]
      exact h
  | open' k' =>
    simp only [step] at hstep
    split at hstep
    · have hopen : (v.openFile k').2 = v' := congrArg Prod.snd (Option.some.inj hstep)
      rw [← hopen, files_openFile]
      exact h
    · cases hstep
  | access a op =>
    simp only [step, accessFile, Option.bind_eq_bind, Option.bind_eq_some_iff] at hstep
    obtain ⟨h₀, ha, k', hk', contents, hget, ⟨r', c⟩, hrun, heq⟩ := hstep
    cases heq
    rw [BoundedMap.get_set hget]
    split
    · rename_i hkk
      subst hkk
      have hnot : op.writes = false := by
        by_contra hw
        exact hc (by simpa using hw) h₀ (Option.join_eq_some_iff.mp ha) hk'
      rw [Access.contents_run hrun hnot, ← h, hget]
    · exact h
  | close a =>
    simp only [step] at hstep
    split at hstep
    · cases hstep
      exact h
    · cases hstep
  | restart console =>
    cases hstep
    rw [restart]
    apply get_addAll
    rw [files_openAll]
    exact h

/-- So it is after any number of them. -/
theorem get_run (hc : Sparing l k cs v) (hrun : cs.mapM (step l) v = some (answers, v'))
    (h : v.files.get k = some bs) : v'.files.get k = some bs := by
  induction cs generalizing v answers with
  | nil =>
    cases hrun
    exact h
  | cons c cs ih =>
    rw [List.mapM_cons] at hrun
    obtain ⟨r, v₁, hfirst, hrun⟩ := Command.bind_eq_some.mp hrun
    obtain ⟨rs, v₂, hrest, heq⟩ := Command.bind_eq_some.mp hrun
    cases heq
    exact ih (hc.2 r v₁ hfirst) hrest (get_step hc.1 hfirst h)

end Volume
