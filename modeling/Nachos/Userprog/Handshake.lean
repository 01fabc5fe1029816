import Nachos.Userprog.ProcessTable

/-!
# The handshake of `Join` and `Exit`

`JoinUpdate` and `ExitUpdate` meet over the two semaphores of the child's `PCB`. Whatever
else happens, what they do to one `PCB` follows a fixed script: the exit code is set, one
`Join` is let in, reads it and lets the child go, and the child removes the `PCB`.
-/
namespace Nachos

open Concurrent

variable {initial : ℕ → Int} {a b : State SemId Pc Data} {tr es : List (Event SemId Ev)}
  {t u : Tid} {d : Data} {k : Pc} {o : ObjectId} {m n : ℕ}

/-- Who takes part in a handshake, and over what. -/
structure Roles where
  id : Int
  code : Int
  child : Tid
  joiner : Tid

/-- The events of a handshake. -/
def concerns (o : ObjectId) : Event SemId Ev → Bool
  | .act _ (.exitCodeSet _ o' _) | .act _ (.exitCodeRead _ o' _) | .act _ (.destroyed o')
  | .P _ (.joinsem o') | .P _ (.exitsem o') | .V _ (.joinsem o') | .V _ (.exitsem o') => o' = o
  | _ => false

def handshake (o : ObjectId) (tr : List (Event SemId Ev)) : List (Event SemId Ev) :=
  tr.filter (concerns o)

/-- The only order in which they come. -/
def script (o : ObjectId) (r : Roles) : List (Event SemId Ev) :=
  [.act r.child (.exitCodeSet r.id o r.code),
    .V (some r.child) (.joinsem o),
    .P r.joiner (.joinsem o),
    .act r.joiner (.exitCodeRead r.id o r.code),
    .V (some r.joiner) (.exitsem o),
    .P r.child (.exitsem o),
    .act r.child (.destroyed o)]

@[simp] theorem handshake_append (o : ObjectId) (tr es : List (Event SemId Ev)) :
    handshake o (tr ++ es) = handshake o tr ++ handshake o es := List.filter_append ..

theorem handshake_freeSpace : handshake o ((freeSpace d u).map (.act t)) = [] := by
  simp [handshake, freeSpace, List.filter_eq_nil_iff, concerns]

/-- How far the script can be while its child is at a control point. -/
def Pc.exiting : Pc → ℕ → Prop
  | .exit _ .check, n => n = 0
  | .exit _ .lookupAgain, n | .exit _ (.wait _), n => 2 ≤ n ∧ n ≤ 5
  | .exit _ .remove, n => n = 6
  | .exit _ .finish, n => n = 7
  | .exit _ _, n => n = 1
  | .halted, _ => True
  | _, n => n = 0

/-- The handshake over `o` has come to the `n`th event of its script. -/
structure Stage (a : State SemId Pc Data) (o : ObjectId) (r : Roles) (n : ℕ) : Prop where
  made : ∀ u, (a.data.object o).thread = some u → o < a.data.nextObject
  joinsem : a.value (.joinsem o) = if n = 2 then 1 else 0
  exitsem : a.value (.exitsem o) = if n = 5 then 1 else 0
  exited : 1 ≤ n → (a.data.object o).thread = some r.child ∧ a.data.pcb r.id = some o ∧
    (a.data.object o).exitcode = r.code
  joined : 3 ≤ n → r.joiner < a.nextTid ∧ ChildOf a.data r.joiner r.id o
  child : ∀ u, (a.data.object o).thread = some u → (a.pc u).exiting n
  reader : ∀ v < a.nextTid, ∀ c, a.pc v = .join c .read → a.data.pcb c = some o →
    n = 3 ∧ v = r.joiner
  releaser : ∀ v < a.nextTid, ∀ c e, a.pc v = .join c (.release o e) →
    n = 4 ∧ v = r.joiner ∧ e = r.code

/-- The thread of a `PCB` is the thread of its process. -/
theorem Stage.slot {r : Roles} (h : Stage a o r n) (ht : TableInv a)
    (hu : (a.data.object o).thread = some u) :
    u ≠ 0 ∧ u < a.nextTid ∧ a.data.pcb (a.data.processID u) = some o :=
  ht.thread o (h.made u hu) u hu

/-- One thread moves and takes the handshake from event `n` to event `m`. -/
theorem Stage.advance {r r' : Roles} (h : Stage a o r n) (hd : SameTable a.data b.data)
    (hbt : b.nextTid = a.nextTid) (hbp : b.pc = Function.update a.pc t k)
    (hj : b.value (.joinsem o) = if m = 2 then 1 else 0)
    (he : b.value (.exitsem o) = if m = 5 then 1 else 0)
    (hexited : 1 ≤ m → (a.data.object o).thread = some r'.child ∧ a.data.pcb r'.id = some o ∧
      (b.data.object o).exitcode = r'.code)
    (hjoined : 3 ≤ m → r'.joiner < a.nextTid ∧ ChildOf a.data r'.joiner r'.id o)
    (hself : (a.data.object o).thread = some t → k.exiting m)
    (hothers : ∀ u, u ≠ t → (a.data.object o).thread = some u → (a.pc u).exiting n →
      (a.pc u).exiting m)
    (hread : ∀ c, k = .join c .read → a.data.pcb c = some o → m = 3 ∧ t = r'.joiner)
    (hreads : n = 3 → t = r.joiner ∨ (m = 3 ∧ r'.joiner = r.joiner))
    (hrel : ∀ c e, k = .join c (.release o e) → m = 4 ∧ t = r'.joiner ∧ e = r'.code)
    (hrels : n = 4 → t = r.joiner ∨ (m = 4 ∧ r' = r)) : Stage b o r' m := by
  have hpc : ∀ v, v ≠ t → b.pc v = a.pc v := by
    intro v hv
    simp [hbp, hv]
  have hpt : b.pc t = k := by simp [hbp]
  constructor
  · simpa only [hd.thread, hd.nextObject] using h.made
  · exact hj
  · exact he
  · simpa only [hd.thread, hd.pcb] using hexited
  · simpa only [hbt, ChildOf, hd.pcb, hd.parentID, hd.processID] using hjoined
  · intro u hu
    rw [hd.thread] at hu
    by_cases hut : u = t
    · rw [hut, hpt]
      exact hself (hut ▸ hu)
    · rw [hpc u hut]
      exact hothers u hut hu (h.child u hu)
  · intro v hv c hc hp
    rw [hd.pcb] at hp
    by_cases hvt : v = t
    · rw [hvt, hpt] at hc
      obtain ⟨hm, hj⟩ := hread c hc hp
      exact ⟨hm, hvt.trans hj⟩
    · rw [hpc v hvt] at hc
      obtain ⟨hn, hv'⟩ := h.reader v (hbt ▸ hv) c hc hp
      rcases hreads hn with hj | ⟨hm, hj⟩
      · exact absurd (hv'.trans hj.symm) hvt
      · exact ⟨hm, hv'.trans hj.symm⟩
  · intro v hv c e hc
    by_cases hvt : v = t
    · rw [hvt, hpt] at hc
      obtain ⟨hm, hj, he⟩ := hrel c e hc
      exact ⟨hm, hvt.trans hj, he⟩
    · rw [hpc v hvt] at hc
      obtain ⟨hn, hv', he'⟩ := h.releaser v (hbt ▸ hv) c e hc
      rcases hrels hn with hj | ⟨hm, rfl⟩
      · exact absurd (hv'.trans hj.symm) hvt
      · exact ⟨hm, hv', he'⟩

/-- What happened to `o` is the beginning of a script, and the state is where that leads. -/
def Shaken (tr : List (Event SemId Ev)) (a : State SemId Pc Data) (o : ObjectId) : Prop :=
  ∃ r n, Stage a o r n ∧ handshake o tr = (script o r).take n

/-- A move of `t` to `k` that takes no part in the handshake over `o`. -/
structure Aside (a : State SemId Pc Data) (t : Tid) (k : Pc) (o : ObjectId) : Prop where
  self : (a.data.object o).thread = some t → ∀ n, (a.pc t).exiting n → k.exiting n
  read : ∀ c, k = .join c .read → a.data.pcb c ≠ some o
  release : ∀ c e, k ≠ .join c (.release o e)

/-- One thread moves, and the handshake is not concerned. -/
theorem Shaken.aside (h : Shaken tr a o) (hk : Aside a t k o) (hes : handshake o es = [])
    (hd : SameTable a.data b.data)
    (hcode : (b.data.object o).exitcode = (a.data.object o).exitcode)
    (hbt : b.nextTid = a.nextTid) (hbp : b.pc = Function.update a.pc t k)
    (hj : b.value (.joinsem o) = a.value (.joinsem o))
    (he : b.value (.exitsem o) = a.value (.exitsem o)) : Shaken (tr ++ es) b o := by
  obtain ⟨r, n, hs, htr⟩ := h
  refine ⟨r, n, hs.advance hd hbt hbp (hj.trans hs.joinsem) (he.trans hs.exitsem)
    (by simpa only [hcode] using hs.exited) hs.joined (fun hu => hk.self hu n (hs.child t hu))
    (fun u _ _ hu => hu) (fun c hc hp => absurd hp (hk.read c hc)) (fun hn => .inr ⟨hn, rfl⟩)
    (fun c e hc => absurd hc (hk.release c e)) (fun hn => .inr ⟨hn, rfl⟩), ?_⟩
  rw [handshake_append, hes, List.append_nil, htr]

theorem Shaken.act {es : List Ev} (h : Shaken tr a o) (hk : Aside a t k o)
    (hes : handshake o (es.map (.act t)) = []) (hd : SameTable a.data d)
    (hcode : (d.object o).exitcode = (a.data.object o).exitcode) :
    Shaken (tr ++ es.map (.act t)) { a.goto t k with data := d } o :=
  h.aside hk hes hd hcode rfl rfl rfl rfl

/-- One thread moves over the semaphore `s`. -/
theorem Shaken.sem {s : SemId} {v : Int} (h : Shaken tr a o) (hk : Aside a t k o)
    (hes : handshake o es = []) (hj : s ≠ .joinsem o) (he : s ≠ .exitsem o) :
    Shaken (tr ++ es) ((a.setValue s v).goto t k) o :=
  h.aside hk hes .rfl' rfl rfl rfl (by simp [hj.symm]) (by simp [he.symm])

/-- Nothing moves that the handshake could see. -/
theorem Shaken.same (h : Shaken tr a o) (hes : handshake o es = []) (hd : SameTable a.data b.data)
    (hcode : (b.data.object o).exitcode = (a.data.object o).exitcode)
    (hbt : b.nextTid = a.nextTid) (hbp : b.pc = a.pc)
    (hj : b.value (.joinsem o) = a.value (.joinsem o))
    (he : b.value (.exitsem o) = a.value (.exitsem o)) : Shaken (tr ++ es) b o := by
  obtain ⟨r, n, hs, htr⟩ := h
  refine ⟨r, n, ⟨?_, hj.trans hs.joinsem, he.trans hs.exitsem, ?_, ?_, ?_, ?_, ?_⟩, ?_⟩
  · simpa only [hd.thread, hd.nextObject] using hs.made
  · simpa only [hd.thread, hd.pcb, hcode] using hs.exited
  · simpa only [hbt, ChildOf, hd.pcb, hd.parentID, hd.processID] using hs.joined
  · simpa only [hd.thread, hbp] using hs.child
  · simpa only [hbt, hbp, hd.pcb] using hs.reader
  · simpa only [hbt, hbp] using hs.releaser
  · rw [handshake_append, hes, List.append_nil, htr]

/-- While the child waits to be released, how far the script is does not matter to it. -/
theorem Pc.exiting_waiting (h : k.exiting n) (hn : 2 ≤ n) (hn' : n ≤ 5) (hm : 2 ≤ m)
    (hm' : m ≤ 5) : k.exiting m := by
  cases k with
  | exit e j => cases j <;> simp only [Pc.exiting] at h ⊢ <;> omega
  | halted => trivial
  | _ =>
    simp only [Pc.exiting] at h
    omega

/-- The thread of a `PCB` is the only one, so the others need not follow it. -/
theorem exiting_others (hth : (a.data.object o).thread = some t) :
    ∀ u, u ≠ t → (a.data.object o).thread = some u → (a.pc u).exiting n → (a.pc u).exiting m := by
  intro u hu hth'
  rw [hth, Option.some.injEq] at hth'
  exact absurd hth'.symm hu

/-- A thread that joins has not begun to exit. -/
theorem Stage.joiner_ne {r : Roles} {c : Int} {j : JoinPc} (h : Stage a o r n) (hn : n ≠ 0)
    (hpc : a.pc t = .join c j) : (a.data.object o).thread ≠ some t := by
  intro hth
  have hex := h.child t hth
  rw [hpc] at hex
  exact hn hex

/-- The next event is the next one of the script. -/
theorem handshake_next {r r' : Roles} {e : Event SemId Ev}
    (htr : handshake o tr = (script o r).take n) (he : concerns o e = true)
    (hs : (script o r).take n ++ [e] = (script o r').take m) :
    handshake o (tr ++ [e]) = (script o r').take m := by
  rw [handshake_append, htr, ← hs]
  simp [handshake, he]

section Events

variable {tr : List (Event SemId Ev)} {e c : Int}

/-- The child sets its exit code. -/
theorem Shaken.exitCodeSet (h : Shaken tr a o) (hi : TableInv a) (ht : t < a.nextTid)
    (hpc : a.pc t = .exit e .check) (h0 : a.data.processID t ≠ 0)
    (ho : a.data.pcb (a.data.processID t) = some o) (p : ObjectId) :
    Shaken (tr ++ [.act t (.exitCodeSet (a.data.processID t) o e)])
      { a.goto t (.exit e (.decP p)) with
        data := a.data.setObject o fun b => { b with exitcode := e } } o := by
  obtain ⟨r, n, hs, htr⟩ := h
  have hth := hi.self ht h0 ho
  have hn : n = 0 := by simpa [hpc, Pc.exiting] using hs.child t hth
  subst hn
  have hd : SameTable a.data (a.data.setObject o fun b => { b with exitcode := e }) :=
    .setObject (fun _ => rfl) fun _ => rfl
  refine ⟨⟨a.data.processID t, e, t, 0⟩, 1, hs.advance (t := t) hd rfl rfl
    (by simpa using hs.joinsem) (by simpa using hs.exitsem)
    (fun _ => ⟨hth, ho, by simp [Data.setObject]⟩) (by simp) (fun _ => rfl) (exiting_others hth)
    (by simp) (by simp) (by simp) (by simp),
    handshake_next htr (by simp [concerns]) (by simp [script])⟩

/-- The child lets a `Join` in. -/
theorem Shaken.joinRelease (h : Shaken tr a o) (hi : TableInv a) (ht : t < a.nextTid)
    (hpc : a.pc t = .exit e (.release o)) :
    Shaken (tr ++ [.V (some t) (.joinsem o)])
      ((a.setValue (.joinsem o) (incr (a.value (.joinsem o)))).goto t (.exit e .lookupAgain)) o := by
  obtain ⟨r, n, hs, htr⟩ := h
  have hl := hi.looked t ht
  rw [hpc] at hl
  have hth := hi.self ht hl.1 hl.2
  have hn : n = 1 := by simpa [hpc, Pc.exiting] using hs.child t hth
  subst hn
  have hr := hs.exited le_rfl
  rw [hth, Option.some.injEq] at hr
  refine ⟨r, 2, hs.advance (t := t) .rfl' rfl rfl (by simp [hs.joinsem, incr])
    (by simpa using hs.exitsem) (fun _ => hs.exited le_rfl) (by simp) (by simp [Pc.exiting])
    (exiting_others hth) (by simp) (by simp) (by simp) (by simp),
    handshake_next htr (by simp [concerns]) (by simp [script, hr.1])⟩

/-- A `Join` is let in. -/
theorem Shaken.joinWait (h : Shaken tr a o) (hi : TableInv a) (ht : t < a.nextTid)
    (hpc : a.pc t = .join c (.wait o)) (hv : a.value (.joinsem o) ≠ 0) :
    Shaken (tr ++ [.P t (.joinsem o)])
      ((a.setValue (.joinsem o) (decr (a.value (.joinsem o)))).goto t (.join c .read)) o := by
  obtain ⟨r, n, hs, htr⟩ := h
  have hl : ChildOf a.data t c o := by
    have := hi.looked t ht
    rwa [hpc] at this
  have hn : n = 2 := by
    by_contra hn
    simp [hs.joinsem, hn] at hv
  subst hn
  obtain ⟨hth, hid, hcode⟩ := hs.exited (by simp)
  have hne : (a.data.object o).thread ≠ some t := hs.joiner_ne (by simp) hpc
  have hc : r.id = c := hi.unique _ _ _ hid hl.1
  refine ⟨{ r with joiner := t }, 3, hs.advance (t := t) .rfl' rfl rfl
    (by simp [hs.joinsem, decr]) (by simpa using hs.exitsem) (fun _ => ⟨hth, hid, hcode⟩)
    (fun _ => ⟨ht, hc ▸ hl⟩) (fun hth' => absurd hth' hne)
    (fun u _ _ hu => Pc.exiting_waiting hu (by simp) (by simp) (by simp) (by simp))
    (by simp) (by simp) (by simp) (by simp),
    handshake_next htr (by simp [concerns]) (by simp [script])⟩

/-- The `Join` reads the exit code. -/
theorem Shaken.exitCodeRead (h : Shaken tr a o) (hi : TableInv a) (ht : t < a.nextTid)
    (hpc : a.pc t = .join c .read) (ho : a.data.pcb c = some o) :
    Shaken (tr ++ [.act t (.exitCodeRead c o (a.data.object o).exitcode)])
      (a.goto t (.join c (.release o (a.data.object o).exitcode))) o := by
  obtain ⟨r, n, hs, htr⟩ := h
  obtain ⟨hn, hj⟩ := hs.reader t ht c hpc ho
  subst hn
  obtain ⟨hth, hid, hcode⟩ := hs.exited (by simp)
  have hne : (a.data.object o).thread ≠ some t := hs.joiner_ne (by simp) hpc
  have hc : r.id = c := hi.unique _ _ _ hid ho
  refine ⟨r, 4, hs.advance (t := t) .rfl' rfl rfl (by simpa using hs.joinsem)
    (by simpa using hs.exitsem) (fun _ => ⟨hth, hid, hcode⟩) (fun _ => hs.joined (by simp))
    (fun hth' => absurd hth' hne)
    (fun u _ _ hu => Pc.exiting_waiting hu (by simp) (by simp) (by simp) (by simp))
    (by simp) (fun _ => .inl hj) ?_ (by simp),
    handshake_next htr (by simp [concerns]) (by simp [script, hc, hj, hcode])⟩
  rintro c' e' hk
  cases hk
  exact ⟨rfl, hj, hcode⟩

/-- The `Join` lets the child go. -/
theorem Shaken.exitRelease (h : Shaken tr a o) (ht : t < a.nextTid)
    (hpc : a.pc t = .join c (.release o e)) :
    Shaken (tr ++ [.V (some t) (.exitsem o)])
      ((a.setValue (.exitsem o) (incr (a.value (.exitsem o)))).goto t (.join c (.ret o e))) o := by
  obtain ⟨r, n, hs, htr⟩ := h
  obtain ⟨hn, hj, he⟩ := hs.releaser t ht c e hpc
  subst hn
  have hne : (a.data.object o).thread ≠ some t := hs.joiner_ne (by simp) hpc
  refine ⟨r, 5, hs.advance (t := t) .rfl' rfl rfl (by simpa using hs.joinsem)
    (by simp [hs.exitsem, incr]) (fun _ => hs.exited (by simp)) (fun _ => hs.joined (by simp))
    (fun hth' => absurd hth' hne)
    (fun u _ _ hu => Pc.exiting_waiting hu (by simp) (by simp) (by simp) (by simp))
    (by simp) (by simp) (by simp) (fun _ => .inl hj),
    handshake_next htr (by simp [concerns]) (by simp [script, hj])⟩

/-- The child is let go. -/
theorem Shaken.exitWait (h : Shaken tr a o) (hi : TableInv a) (ht : t < a.nextTid)
    (hpc : a.pc t = .exit e (.wait o)) (hv : a.value (.exitsem o) ≠ 0) :
    Shaken (tr ++ [.P t (.exitsem o)])
      ((a.setValue (.exitsem o) (decr (a.value (.exitsem o)))).goto t (.exit e .remove)) o := by
  obtain ⟨r, n, hs, htr⟩ := h
  have hl := hi.looked t ht
  rw [hpc] at hl
  have hth := hi.self ht hl.1 hl.2
  have hn : n = 5 := by
    by_contra hn
    simp [hs.exitsem, hn] at hv
  subst hn
  have hr := hs.exited (by simp)
  rw [hth, Option.some.injEq] at hr
  refine ⟨r, 6, hs.advance (t := t) .rfl' rfl rfl (by simpa using hs.joinsem)
    (by simp [hs.exitsem, decr]) (fun _ => hs.exited (by simp)) (fun _ => hs.joined (by simp))
    (by simp [Pc.exiting]) (exiting_others hth) (by simp) (by simp) (by simp) (by simp),
    handshake_next htr (by simp [concerns]) (by simp [script, hr.1])⟩

/-- The child removes its `PCB`. -/
theorem Shaken.destroy (h : Shaken tr a o) (hi : TableInv a) (ht : t < a.nextTid)
    (hpc : a.pc t = .exit e .remove) (h0 : a.data.processID t ≠ 0)
    (ho : a.data.pcb (a.data.processID t) = some o) :
    Shaken (tr ++ (.destroyed o :: freeSpace a.data t).map (.act t))
      (a.goto t (.exit e .finish)) o := by
  obtain ⟨r, n, hs, htr⟩ := h
  have hth := hi.self ht h0 ho
  have hn : n = 6 := by simpa [hpc, Pc.exiting] using hs.child t hth
  subst hn
  have hr := hs.exited (by simp)
  rw [hth, Option.some.injEq] at hr
  refine ⟨r, 7, hs.advance (t := t) .rfl' rfl rfl (by simpa using hs.joinsem)
    (by simpa using hs.exitsem) (fun _ => hs.exited (by simp)) (fun _ => hs.joined (by simp))
    (fun _ => rfl) (exiting_others hth) (by simp) (by simp) (by simp) (by simp), ?_⟩
  rw [List.map_cons, ← List.singleton_append, ← List.append_assoc, handshake_append,
    handshake_freeSpace, List.append_nil]
  exact handshake_next htr (by simp [concerns]) (by simp [script, hr.1])

end Events

/-- A new `PCB` has no thread, so nothing has happened to it. -/
theorem Shaken.execSlot (h : Shaken tr a o) (hi : TableInv a) {name : String} {x y : Int}
    (hpc : a.pc t = .exec (.check name)) (hslot : 0 ≤ a.data.getFreeSlot) :
    Shaken tr { a.goto t (.exec (.multexP a.data.getFreeSlot a.data.nextObject name)) with
      data := { a.data with
        pcb := Function.update a.data.pcb a.data.getFreeSlot (some a.data.nextObject)
        object := Function.update a.data.object a.data.nextObject
          ⟨a.data.processID t, none, x, y, name⟩
        nextObject := a.data.nextObject + 1 } } o := by
  obtain ⟨_, hfree⟩ := getFreeSlot_spec hslot
  generalize a.data.getFreeSlot = i at *
  obtain ⟨r, n, hs, htr⟩ := h
  -- a handshake that has begun is over an older `PCB`
  have hold : 1 ≤ n → o ≠ a.data.nextObject ∧ r.id ≠ i := by
    intro hn
    have hid := (hs.exited hn).2.1
    refine ⟨(hi.slot _ o hid).2.2.ne, ?_⟩
    rintro rfl
    simp [hfree] at hid
  refine ⟨r, n, ⟨?_, hs.joinsem, hs.exitsem, ?_, ?_, ?_, ?_, ?_⟩, htr⟩
  · intro u hu
    by_cases ho : o = a.data.nextObject
    · simp [ho] at hu
    · exact Nat.lt_succ_of_lt (hs.made u (by simpa [ho] using hu))
  · intro hn
    simpa [hold hn] using hs.exited hn
  · intro hn
    simpa [ChildOf, hold (Nat.le_of_succ_le (Nat.le_of_succ_le hn))] using hs.joined hn
  · intro u hu
    by_cases ho : o = a.data.nextObject
    · simp [ho] at hu
    · have hex := hs.child u (by simpa [ho] using hu)
      by_cases hut : u = t
      · rw [hut, hpc] at hex
        simpa [hut, Pc.exiting] using hex
      · simpa [hut] using hex
  · intro v hv c hc hp
    by_cases hvt : v = t
    · simp [hvt] at hc
    · have hc : a.pc v = .join c .read := by simpa [hvt] using hc
      have hl := hi.looked v hv
      rw [hc] at hl
      obtain ⟨o', ho', _⟩ := hl
      have hci : c ≠ i := by
        rintro rfl
        simp [hfree] at ho'
      exact hs.reader v hv c hc (by simpa [hci] using hp)
  · intro v hv c e hc
    by_cases hvt : v = t
    · simp [hvt] at hc
    · exact hs.releaser v hv c e (by simpa [hvt] using hc)

/-- The new thread has not begun to exit. -/
theorem Shaken.fork (h : Shaken tr a o) (hi : TableInv a) (ht : t < a.nextTid) {i : Int}
    {o' : ObjectId} {name : String} (hpc : a.pc t = .exec (.fork i o' name)) :
    Shaken tr { (a.goto a.nextTid (.startProcess2 i)).goto t (.exec (.multexV i o' a.nextTid)) with
      nextTid := a.nextTid + 1
      data := { a.data.setObject o' fun b =>
          { b with thread := some a.nextTid, parentID := a.data.processID t } with
        processID := Function.update a.data.processID a.nextTid i
        threadName := Function.update a.data.threadName a.nextTid (some name)
        space := Function.update a.data.space a.nextTid none } } o := by
  have hl := hi.looked t ht
  rw [hpc] at hl
  obtain ⟨_, hnone, hpcb, _⟩ := hl
  obtain ⟨r, n, hs, htr⟩ := h
  -- a handshake that has begun is over a `PCB` that has its thread
  have hold : 1 ≤ n → o ≠ o' := by
    rintro hn rfl
    have hth := (hs.exited hn).1
    simp [hnone] at hth
  refine ⟨r, n, ⟨?_, hs.joinsem, hs.exitsem, ?_, ?_, ?_, ?_, ?_⟩, htr⟩
  · intro u hu
    by_cases ho : o = o'
    · exact ho ▸ (hi.slot i o' hpcb).2.2
    · exact hs.made u (by simpa [Data.setObject, ho] using hu)
  · intro hn
    simpa [Data.setObject, hold hn] using hs.exited hn
  · intro hn
    obtain ⟨hj, hc⟩ := hs.joined hn
    refine ⟨Nat.lt_succ_of_lt hj, ?_⟩
    simpa [ChildOf, Data.setObject, hold (Nat.le_of_succ_le (Nat.le_of_succ_le hn)), hj.ne] using hc
  · intro u hu
    by_cases ho : o = o'
    · subst ho
      have hn : n = 0 := by
        by_contra hn
        exact hold (Nat.one_le_iff_ne_zero.mpr hn) rfl
      simp only [Data.setObject, Function.update_self, Option.some.injEq] at hu
      subst hu
      simp [ht.ne', hn, Pc.exiting]
    · have hth : (a.data.object o).thread = some u := by simpa [Data.setObject, ho] using hu
      have hex := hs.child u hth
      have hun : u ≠ a.nextTid := (hs.slot hi hth).2.1.ne
      by_cases hut : u = t
      · rw [hut, hpc] at hex
        simpa [hut, Pc.exiting] using hex
      · simpa [hut, hun] using hex
  · intro v hv c hc hp
    by_cases hvt : v = t
    · simp [hvt] at hc
    · by_cases hvn : v = a.nextTid
      · simp [hvn, ht.ne'] at hc
      · exact hs.reader v (lt_of_le_of_ne (Nat.lt_succ_iff.mp hv) hvn) c
          (by simpa [hvt, hvn] using hc) hp
  · intro v hv c e hc
    by_cases hvt : v = t
    · simp [hvt] at hc
    · by_cases hvn : v = a.nextTid
      · simp [hvn, ht.ne'] at hc
      · exact hs.releaser v (lt_of_le_of_ne (Nat.lt_succ_iff.mp hv) hvn) c e
          (by simpa [hvt, hvn] using hc)

/-- The thread of another `PCB`. -/
theorem Shaken.other {o' : ObjectId} (h : Shaken tr a o) (hi : TableInv a) (hne : o' ≠ o)
    (ho : a.data.pcb (a.data.processID t) = some o') : (a.data.object o).thread ≠ some t := by
  obtain ⟨r, n, hs, _⟩ := h
  intro hth
  have := (hs.slot hi hth).2.2
  rw [ho, Option.some.injEq] at this
  exact hne this

theorem shaken_act {es : List Ev} (ht : t < a.nextTid) (hl : LocalStep t a.data (a.pc t) es k d)
    (hi : TableInv a) (h : Shaken tr a o) :
    Shaken (tr ++ es.map (.act t)) { a.goto t k with data := d } o := by
  have hlook := hi.looked t ht
  generalize hpc : a.pc t = pc at hl hlook
  cases hl with
  | execSlot x y hslot => simpa using h.execSlot hi hpc hslot
  | @exitSet e o' p h0 ho hp =>
    by_cases hne : o' = o
    · subst hne
      exact h.exitCodeSet hi ht hpc h0 ho p
    · have hd : SameTable a.data (a.data.setObject o' fun b => { b with exitcode := e }) :=
        .setObject (fun _ => rfl) fun _ => rfl
      exact h.act ⟨fun hth => absurd hth (h.other hi hne ho), by simp, by simp⟩
        (by simp [handshake, concerns, hne]) hd (by simp [Data.setObject, Ne.symm hne])
  | @joinRead c o' ho =>
    by_cases hne : o' = o
    · subst hne
      exact h.exitCodeRead hi ht hpc ho
    · exact h.act ⟨by simp [hpc, Pc.exiting], by simp, by simp [hne]⟩
        (by simp [handshake, concerns, hne]) .rfl' rfl
  | @removeFinish e o' v ho hv =>
    have hth := hi.self ht hlook ho
    rw [hv, Option.some.injEq] at hth
    subst hth
    rw [if_pos rfl]
    by_cases hne : o' = o
    · subst hne
      exact h.destroy hi ht hpc hlook ho
    · refine h.act ⟨fun hth => absurd hth (h.other hi hne ho), by simp, by simp⟩ ?_ .rfl' rfl
      rw [List.map_cons, ← List.singleton_append, handshake_append, handshake_freeSpace]
      simp [handshake, concerns, hne]
  | removeClear ho hu => simp [hi.self ht hlook ho] at hu
  | removeNone ho =>
    obtain ⟨o', ho', _⟩ := hi.process ht hlook
    simp [ho'] at ho
  | noProgram hk | callSem hk =>
    rcases hk with ⟨_, rfl⟩ | ⟨_, rfl⟩ <;>
      exact h.act ⟨by simp [hpc, Pc.exiting], by simp, by simp⟩ rfl .rfl' rfl
  | newSpace w n hstart hk =>
    rcases hstart with rfl | ⟨_, rfl⟩ <;> rcases hk with rfl | ⟨_, rfl⟩ | rfl <;>
      exact h.act ⟨by simp [hpc, Pc.exiting], by simp, by simp⟩ rfl
        ⟨rfl, rfl, rfl, fun _ => rfl, fun _ => rfl⟩ rfl
  | user r hk =>
    cases hk <;>
      exact h.act ⟨by simp [hpc, Pc.exiting], by simp, by simp⟩ (by simp [handshake, concerns])
        ⟨rfl, rfl, rfl, fun _ => rfl, fun _ => rfl⟩ rfl
  | halt _ hes =>
    refine h.act ⟨by simp [Pc.exiting], by simp, by simp⟩ ?_ .rfl' rfl
    rcases hes with rfl | rfl
    · rfl
    · exact handshake_freeSpace
  | load | loadFails =>
    refine h.act ⟨by simp [hpc, Pc.exiting], by simp, by simp⟩ ?_ .rfl' rfl
    simp only [handshake, List.filter_eq_nil_iff, List.mem_map]
    rintro _ ⟨_, ⟨_, _, rfl⟩, rfl⟩
    simp [concerns]
  | @joinInc c p =>
    have hd : SameTable a.data (a.data.setObject p fun b => { b with numwait := incr b.numwait }) :=
      .setObject (fun _ => rfl) fun _ => rfl
    refine h.act ⟨by simp [hpc, Pc.exiting], by simp, by simp⟩ rfl hd ?_
    by_cases hp : o = p <;> simp [Data.setObject, hp]
  | @exitDec e p n =>
    have hd : SameTable a.data (a.data.setObject p fun b => { b with numwait := n }) :=
      .setObject (fun _ => rfl) fun _ => rfl
    refine h.act ⟨by simp [hpc, Pc.exiting], by simp, by simp⟩ rfl hd ?_
    by_cases hp : o = p <;> simp [Data.setObject, hp]
  | _ =>
    exact h.act ⟨by simp [hpc, Pc.exiting], by simp, by simp⟩ (by simp [handshake, concerns])
      ⟨rfl, rfl, rfl, fun _ => rfl, fun _ => rfl⟩ rfl

theorem shaken_step (hs : ProcessStep a es b) (hi : TableInv a) (h : Shaken tr a o) :
    Shaken (tr ++ es) b o := by
  cases hs with
  | @P t s k ht hc hv =>
    have hlook := hi.looked t ht
    generalize hpc : a.pc t = pc at hc hlook
    cases hc with
    | @joinWait c o' =>
      by_cases hne : o' = o
      · subst hne
        exact h.joinWait hi ht hpc hv
      · refine h.sem ⟨by simp [hpc, Pc.exiting], ?_, by simp⟩ (by simp [handshake, concerns, hne])
          (by simp [hne]) (by simp)
        rintro c' hc
        cases hc
        rw [hlook.1]
        simpa using hne
    | @exitWait e o' =>
      by_cases hne : o' = o
      · subst hne
        exact h.exitWait hi ht hpc hv
      · exact h.sem ⟨fun hth => absurd hth (h.other hi hne hlook.2), by simp, by simp⟩
          (by simp [handshake, concerns, hne]) (by simp) (by simp [hne])
    | _ =>
      exact h.sem ⟨by simp [hpc, Pc.exiting], by simp, by simp⟩ (by simp [handshake, concerns])
        (by simp) (by simp)
  | @V t s k ht hc =>
    have hlook := hi.looked t ht
    generalize hpc : a.pc t = pc at hc hlook
    cases hc with
    | @joinRelease c o' e =>
      by_cases hne : o' = o
      · subst hne
        exact h.exitRelease ht hpc
      · exact h.sem ⟨by simp [hpc, Pc.exiting], by simp, by simp⟩
          (by simp [handshake, concerns, hne]) (by simp) (by simp [hne])
    | @exitRelease e o' =>
      by_cases hne : o' = o
      · subst hne
        exact h.joinRelease hi ht hpc
      · exact h.sem ⟨fun hth => absurd hth (h.other hi hne hlook.2), by simp, by simp⟩
          (by simp [handshake, concerns, hne]) (by simp [hne]) (by simp)
    | _ =>
      exact h.sem ⟨by simp [hpc, Pc.exiting], by simp, by simp⟩ (by simp [handshake, concerns])
        (by simp) (by simp)
  | handler => exact h.same (by simp [handshake, concerns]) .rfl' rfl rfl rfl (by simp) (by simp)
  | tick ht hc =>
    exact h.aside ⟨by simp [hc, Pc.exiting], by simp, by simp⟩ rfl .rfl' rfl rfl rfl rfl rfl
  | fork ht hc => simpa using h.fork hi ht hc
  | act ht hl => exact shaken_act ht hl hi h
  | hook =>
    exact h.same rfl ⟨rfl, rfl, rfl, fun _ => rfl, fun _ => rfl⟩ rfl rfl rfl rfl rfl

theorem shaken_run (h : (atomic (process initial)).Run tr a) (o : ObjectId) : Shaken tr a o := by
  refine h.invariant (I := fun tr a => Shaken tr a o) ?_ ?_
  · rintro a rfl
    refine ⟨⟨0, 0, 0, 0⟩, 0, ?_, rfl⟩
    constructor <;> simp [Program.initial, process, initialData]
  · intro tr a es b hr hi hs
    exact shaken_step (processStep_of_step hs) (table_run hr) hi

end Nachos
