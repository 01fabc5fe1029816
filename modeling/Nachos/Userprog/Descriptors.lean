import Nachos.Userprog.FileCalls

/-!
# Descriptors are not reclaimed

`Exception_Close` deletes the `OpenFile` and leaves the pointer in the table. So the table
is what it should be exactly as long as no call closes an open file.
-/
namespace Nachos

variable {stdin stdout : Int} {s t : FileState} {tr es : List FileEv} {fs fs' : FileSystem}
  {h : Host} {c : FileCall} {r : Outcome} {id : Int}

/-- The descriptor a call is about. -/
def FileCall.id? : FileCall → Option Int
  | .Open _ _ => none
  | .Close id | .Read _ id | .Write _ id => some id

/-- `Close(id)` has returned `0`, and no `Open` has returned `id` since. -/
def Closed (tr : List FileEv) (id : Int) : Prop :=
  ∃ tr₁ tr₂, tr = tr₁ ++ .call (.Close id) (.returns 0) :: tr₂ ∧
    ∀ name type, .call (.Open name type) (.returns id) ∉ tr₂

/-- Closing a descriptor frees it. -/
structure Reclaims (tr : List FileEv) (s : FileState) : Prop where
  empty : ∀ id, Closed tr id → s.fileSystem.openf id = none
  refused : ∀ tr₁ c r tr₂ id, tr = tr₁ ++ .call c r :: tr₂ → c.id? = some id → Closed tr₁ id →
    r = .returns (-1)
  deletedOnce : ∀ f, tr.count (.deleted f) ≤ 1
  notUsed : ∀ tr₁ f tr₂, tr = tr₁ ++ .deleted f :: tr₂ → .used f ∉ tr₂
  /-- `Open` finds a slot again. -/
  available : ∀ id, 2 ≤ id → Closed tr id → s.fileSystem.findFreeSlot ≠ -1

/-- A slot that holds a file. -/
def FileSystem.occupied (fs : FileSystem) (id : Int) : Prop :=
  0 ≤ id ∧ id ≤ 14 ∧ ∃ f, fs.openf id = some f

/-- `Close` is called on empty slots and outside the table only. -/
def ClosesNothing (s : FileState) (es : List FileEv) : Prop :=
  ∀ id r, .call (.Close id) r ∈ es → ¬s.fileSystem.occupied id

/-- What a call can do to the table, and what it deletes. -/
inductive Effect (fs : FileSystem) : FileCall → FileSystem → List FileEv → Outcome → Prop
  | nothing {c : FileCall} {evs : List FileEv} {r : Outcome}
      (hevs : evs = [] ∨ ∃ f, evs = [.used f])
      (hclose : ∀ id, c = .Close id → ¬fs.occupied id ∧ r = .returns (-1)) :
      Effect fs c fs evs r
  | opened {name : String} {type : Int} {r : Outcome} (fileDescriptor : Int) :
      Effect fs (.Open name type)
        ((fs.open' fileDescriptor type).2.setOpenf fs.findFreeSlot
          (fs.open' fileDescriptor type).1) [] r
  | closed {id : Int} {f : FileId} (hocc : fs.occupied id) (hf : fs.openf id = some f) :
      Effect fs (.Close id)
        { fs with hostOpen := Function.update fs.hostOpen (fs.object f).file false }
        [.deleted f] (.returns 0)
  | aborted {id : Int} {f : FileId} (hocc : fs.occupied id) (hf : fs.openf id = some f)
      (hh : fs.hostOpen (fs.object f).file = false) :
      Effect fs (.Close id) fs [.deleted f] .halt

theorem effect_of_open {name : String} {type : Int} {evs : List FileEv}
    (hc : fs.exceptionOpen h name type = (fs', evs, r)) :
    Effect fs (.Open name type) fs' evs r := by
  simp only [FileSystem.exceptionOpen] at hc
  split at hc
  · cases hc
    exact .nothing (.inl rfl) (by simp)
  split at hc
  · cases hc
    exact .nothing (.inl rfl) (by simp)
  split at hc
  · cases hc
    exact .opened _
  split at hc <;> cases hc <;> exact .nothing (.inl rfl) (by simp)

theorem effect_of_close {evs : List FileEv} (hc : fs.exceptionClose id = (fs', evs, r)) :
    Effect fs (.Close id) fs' evs r := by
  simp only [FileSystem.exceptionClose] at hc
  split at hc
  · rename_i hid
    split at hc
    · rename_i f hf
      have hocc : fs.occupied id := ⟨hid.1, hid.2, f, hf⟩
      split at hc
      · cases hc
        exact .closed hocc hf
      · rename_i hh
        cases hc
        exact .aborted hocc hf (Bool.not_eq_true _ ▸ hh)
    · rename_i hf
      cases hc
      refine .nothing (.inl rfl) ?_
      rintro _ ⟨⟩
      refine ⟨?_, rfl⟩
      rintro ⟨_, _, f, hf'⟩
      rw [hf] at hf'
      cases hf'
  · rename_i hid
    cases hc
    refine .nothing (.inl rfl) ?_
    rintro _ ⟨⟩
    exact ⟨fun hocc => hid ⟨hocc.1, hocc.2.1⟩, rfl⟩

theorem effect_of_call {evs : List FileEv} (hc : fs.call h c = (fs', evs, r)) :
    Effect fs c fs' evs r := by
  cases c with
  | Open name type => exact effect_of_open hc
  | Close id => exact effect_of_close hc
  | Read n id =>
    simp only [FileSystem.call, FileSystem.exceptionRead] at hc
    repeat' split at hc
    all_goals
      cases hc
      refine .nothing ?_ (by simp)
      first | exact .inl rfl | exact .inr ⟨_, rfl⟩
  | Write n id =>
    simp only [FileSystem.call, FileSystem.exceptionWrite] at hc
    repeat' split at hc
    all_goals
      cases hc
      refine .nothing ?_ (by simp)
      first | exact .inl rfl | exact .inr ⟨_, rfl⟩

theorem effect_of_step (hs : (fileCalls stdin stdout).step s es t) : ∃ c evs r,
    Effect s.fileSystem c t.fileSystem evs r ∧ es = evs ++ [.call c r] := by
  obtain ⟨⟨c, h⟩, hn⟩ := hs
  simp only [FileState.next] at hn
  split at hn
  · simp only [Option.some.injEq, Prod.mk.injEq] at hn
    obtain ⟨rfl, rfl⟩ := hn
    exact ⟨c, _, _, effect_of_call rfl, rfl⟩
  · cases hn

/-- Every file in the table is open at the host. -/
def FileSystem.Live (fs : FileSystem) : Prop :=
  ∀ id f, fs.openf id = some f → f < fs.nextFile ∧ fs.hostOpen (fs.object f).file = true

theorem live_open (hl : fs.Live) (fileDescriptor type i : Int) :
    ((fs.open' fileDescriptor type).2.setOpenf i (fs.open' fileDescriptor type).1).Live := by
  intro id f hf
  unfold FileSystem.open' at hf ⊢
  split at hf
  · rename_i hfd
    rw [if_pos hfd]
    by_cases hid : id = i
    · simp [FileSystem.setOpenf, hid] at hf
    · exact hl id f (by simpa [FileSystem.setOpenf, hid] using hf)
  · rename_i hfd
    rw [if_neg hfd]
    by_cases hid : id = i
    · have : f = fs.nextFile := by simpa [FileSystem.setOpenf, hid, eq_comm] using hf
      subst this
      exact ⟨Nat.lt_succ_self _, by simp [FileSystem.setOpenf]⟩
    · obtain ⟨hlt, hopen⟩ := hl id f (by simpa [FileSystem.setOpenf, hid] using hf)
      refine ⟨Nat.lt_succ_of_lt hlt, ?_⟩
      simp only [FileSystem.setOpenf, Function.update_of_ne (Nat.ne_of_lt hlt)]
      by_cases hfile : (fs.object f).file = fileDescriptor
      · simp [hfile]
      · simpa [hfile] using hopen

theorem live_new : (FileSystem.new stdin stdout).Live := by
  have hnone : FileSystem.Live ⟨fun _ => none, fun _ => ⟨0, 0⟩, 0, fun _ => false⟩ := by
    simp [FileSystem.Live]
  exact live_open (live_open hnone stdin 2 0) stdout 3 1

/-- A step that closes nothing keeps the table, and neither deletes nor closes. -/
theorem closesNothing_step (hs : (fileCalls stdin stdout).step s es t) (hn : ClosesNothing s es)
    (hl : s.fileSystem.Live) : t.fileSystem.Live ∧ (∀ f, .deleted f ∉ es) ∧
      ∀ id, .call (.Close id) (.returns 0) ∉ es := by
  obtain ⟨c, evs, r, he, rfl⟩ := effect_of_step hs
  generalize t.fileSystem = fs' at he
  cases he with
  | nothing hevs hclose =>
    refine ⟨hl, ?_, ?_⟩
    · rcases hevs with rfl | ⟨f, rfl⟩ <;> simp
    · intro id hid
      have hid : c = .Close id ∧ r = .returns 0 := by
        rcases hevs with rfl | ⟨f, rfl⟩ <;> simpa [eq_comm] using hid
      have := (hclose id hid.1).2
      rw [hid.2] at this
      cases this
  | opened fd => exact ⟨live_open hl fd _ _, by simp, by simp⟩
  | closed hocc => exact absurd hocc (hn _ (.returns 0) (by simp))
  | aborted hocc => exact absurd hocc (hn _ .halt (by simp))

theorem closesNothing_run (h : ((fileCalls stdin stdout).restrict ClosesNothing).Run tr s) :
    s.fileSystem.Live ∧ (∀ f, .deleted f ∉ tr) ∧ ∀ id, .call (.Close id) (.returns 0) ∉ tr := by
  refine h.invariant (I := fun tr s => s.fileSystem.Live ∧ (∀ f, .deleted f ∉ tr) ∧
    ∀ id, .call (.Close id) (.returns 0) ∉ tr) ?_ ?_
  · rintro s rfl
    exact ⟨live_new, by simp, by simp⟩
  · intro tr s es t _ hi hs
    obtain ⟨h1, h2, h3⟩ := closesNothing_step hs.1 hs.2 hi.1
    exact ⟨h1, fun f => by simp [hi.2.1 f, h2 f], fun id => by simp [hi.2.2 id, h3 id]⟩

/-- As long as nothing is closed there is nothing to reclaim. -/
theorem reclaims_of_closesNothing
    (h : ((fileCalls stdin stdout).restrict ClosesNothing).Run tr s) : Reclaims tr s := by
  obtain ⟨_, hd, hc⟩ := closesNothing_run h
  have hclosed : ∀ {tr₁ tr₂ : List FileEv} {id : Int}, tr = tr₁ ++ tr₂ → ¬Closed tr₁ id := by
    rintro tr₁ tr₂ id rfl ⟨l₁, l₂, rfl, _⟩
    exact hc id (by simp)
  constructor
  · intro id hid
    exact absurd hid (hclosed (List.append_nil tr).symm)
  · intro tr₁ c r tr₂ id htr _ hid
    exact absurd hid (hclosed htr)
  · intro f
    rw [List.count_eq_zero.mpr (hd f)]
    exact Nat.zero_le 1
  · rintro tr₁ f tr₂ rfl
    exact absurd (by simp) (hd f)
  · intro id _ hid
    exact absurd hid (hclosed (List.append_nil tr).symm)

/-- A call of `Close` on an open file returns `0` and leaves the slot as it is. -/
theorem close_keeps (hs : (fileCalls stdin stdout).step s es t) (hl : s.fileSystem.Live)
    (hmem : .call (.Close id) r ∈ es) (hocc : s.fileSystem.occupied id) :
    t.fileSystem.openf = s.fileSystem.openf ∧ ∃ f, es = [.deleted f, .call (.Close id) (.returns 0)] := by
  obtain ⟨c, evs, r', he, rfl⟩ := effect_of_step hs
  generalize t.fileSystem = fs' at he
  cases he with
  | nothing hevs hclose =>
    have hc : c = .Close id := by
      rcases hevs with rfl | ⟨f, rfl⟩ <;> simp at hmem <;> exact hmem.1.symm
    exact absurd hocc (hclose id hc).1
  | opened fd => simp at hmem
  | @closed id' f hocc' hf =>
    simp at hmem
    obtain ⟨rfl, _⟩ := hmem
    exact ⟨rfl, f, rfl⟩
  | aborted _ hf hh => simp [(hl _ _ hf).2] at hh

/-- The runs in which closing frees the descriptor in every state are exactly those in
which no call closes an open file. -/
theorem reclaims_iff : (fileCalls stdin stdout).Always Reclaims tr s ↔
    ((fileCalls stdin stdout).restrict ClosesNothing).Run tr s := by
  constructor
  · intro h
    induction h with
    | start hi _ => exact .start hi
    | @next tr es s t _ hs hp ih =>
      refine .next ih ⟨hs, ?_⟩
      intro id r hmem hocc
      obtain ⟨hkeep, f, rfl⟩ := close_keeps hs (closesNothing_run ih).1 hmem hocc
      obtain ⟨_, _, f', hf'⟩ := hocc
      have hclosed : Closed (tr ++ [.deleted f, .call (.Close id) (.returns 0)]) id :=
        ⟨tr ++ [.deleted f], [], by simp, by simp⟩
      have := hp.empty id hclosed
      rw [hkeep, hf'] at this
      cases this
  · exact fun h => h.always reclaims_of_closesNothing

/-- A host on which every file opens as its descriptor `5`. -/
def anyFile : Host := { openForReadWrite := fun _ => 5 }

/-- A file is opened and closed thirteen times, one open at a time. No slot is ever empty
again, so the next `Open` finds none. -/
theorem descriptor_not_reclaimed : ∃ tr s, (fileCalls 3 4).Run tr s ∧
    tr = (List.range 13).flatMap (fun i : ℕ => [.call (.Open "a" 0) (.returns (i + 2)),
      .deleted (i + 2), .call (.Close (i + 2)) (.returns 0)]) ++
      [.call (.Open "a" 0) (.returns (-1))] ∧
    s.fileSystem.openf 2 = some 2 ∧ ¬Reclaims tr s := by
  obtain ⟨tr, s, hr, _, hp⟩ := System.exists_run_of_exec (FileState.initial 3 4)
    FileState.next
    ((List.range 13).flatMap (fun i : ℕ =>
      [(.Open "a" 0, anyFile), (.Close (i + 2), anyFile)]) ++ [(.Open "a" 0, anyFile)])
    (fun r => decide (r.2 = (List.range 13).flatMap (fun i : ℕ =>
      [.call (.Open "a" 0) (.returns (i + 2)), .deleted (i + 2),
        .call (.Close (i + 2)) (.returns 0)]) ++ [.call (.Open "a" 0) (.returns (-1))] ∧
      r.1.fileSystem.openf 2 = some 2)) (by decide +kernel)
  obtain ⟨htr, hslot⟩ := of_decide_eq_true hp
  have htr : tr = _ := htr
  have hslot : s.fileSystem.openf 2 = some 2 := hslot
  refine ⟨tr, s, hr, htr, hslot, fun h => ?_⟩
  have hclosed : Closed tr 2 := by
    rw [htr]
    refine ⟨[.call (.Open "a" 0) (.returns 2), .deleted 2], _, rfl, ?_⟩
    intro name type
    simp
  have := h.empty 2 hclosed
  rw [hslot] at this
  cases this

end Nachos
