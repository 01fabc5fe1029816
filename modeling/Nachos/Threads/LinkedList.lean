import Nachos.Lib.Command
import Nachos.Lib.Keyed
import Nachos.Lib.Linked
import Mathlib.Order.Lattice.Nat

/-!
# Lists of the kernel

`list.cc`: a singly linked list of `ListElement`s on the heap, with pointers to the first and
to the last of them. It is the sequence of what has been put in.
-/
namespace Nachos

abbrev Address := ℕ

/-- What a `ListElement` has of its own. `item` is a `void *`. -/
structure Entry (α : Type) where
  item : Option α
  key : Int
  deriving DecidableEq

namespace LinkedList

/-- `class ListElement` of `list.h`, with `none` for `NULL`. -/
structure ListElement (α : Type) extends Entry α where
  next : Option Address

abbrev Heap (α : Type) := Linked.Heap Address (ListElement α)

/-- `new` returns any address that is not in use. -/
abbrev Allocator (α : Type) := (h : Heap α) → { element : Address // element ∉ h }

/-- There always is one, for instance above all that are in use. -/
def Allocator.above (α : Type) : Allocator α := fun h => ⟨h.keys.sup id + 1, fun hmem =>
  Nat.not_succ_le_self _ (Finset.le_sup (f := id) (Finmap.mem_keys.mpr hmem))⟩

instance {α : Type} : Inhabited (Allocator α) := ⟨Allocator.above α⟩

end LinkedList

/-- `class List` of `list.h`, with the heap. -/
structure LinkedList (α : Type) where
  first : Option Address
  last : Option Address
  heap : LinkedList.Heap α

namespace LinkedList

open Command (stop)

variable {α : Type}

/-- `List::List`. -/
def new (heap : Heap α) : LinkedList α := ⟨none, none, heap⟩

/-- `*p`. There is nothing at `NULL`, nor where an element has been deleted. -/
def deref (p : Option Address) : Command (LinkedList α) (ListElement α) := fun l =>
  (p.bind fun a => l.heap.lookup a).map fun e => (e, l)

/-- `p->next = q`. -/
def setNext (p q : Option Address) : Command (LinkedList α) Unit := do
  let e ← deref p
  fun l => p.map fun a => ((), { l with heap := l.heap.insert a { e with next := q } })

/-- The fields of the object. -/
def fields : Command (LinkedList α) (LinkedList α) := fun l => some (l, l)

def setFirst (p : Option Address) : Command (LinkedList α) Unit := fun l =>
  some ((), { l with first := p })

def setLast (p : Option Address) : Command (LinkedList α) Unit := fun l =>
  some ((), { l with last := p })

/-- `new ListElement(item, sortKey)`. -/
def newElement (new : Allocator α) (item : Option α) (sortKey : Int) :
    Command (LinkedList α) (Option Address) := fun l =>
  some (some (new l.heap).1, { l with
    heap := l.heap.insert (new l.heap).1 { item, key := sortKey, next := none } })

/-- `delete p`. -/
def delete (p : Option Address) : Command (LinkedList α) Unit := do
  let _ ← deref p
  fun l => p.map fun a => ((), { l with heap := l.heap.erase a })

def isEmpty : Command (LinkedList α) Bool := fun l => some (l.first.isNone, l)

def append (new : Allocator α) (item : Option α) : Command (LinkedList α) Unit := do
  let element ← newElement new item 0
  let empty ← isEmpty
  if empty then do
    setFirst element
    setLast element
  else do
    let l ← fields
    setNext l.last element
    setLast element

def prepend (new : Allocator α) (item : Option α) : Command (LinkedList α) Unit := do
  let element ← newElement new item 0
  let empty ← isEmpty
  if empty then do
    setFirst element
    setLast element
  else do
    let l ← fields
    setNext element l.first
    setFirst element

/-- The loop of `SortedInsert`, for up to `fuel` elements: whether it has returned. -/
def insertAfter (element : Option Address) (sortKey : Int) :
    ℕ → Option Address → Command (LinkedList α) Bool
  | 0, _ => stop
  | fuel + 1, ptr => do
    let e ← deref ptr
    if e.next = none then pure false
    else do
      let following ← deref e.next
      if sortKey < following.key then do
        setNext element e.next
        setNext ptr element
        pure true
      else insertAfter element sortKey fuel e.next

/-- A loop over more elements than there are does not end. -/
def sortedInsert (new : Allocator α) (item : Option α) (sortKey : Int) :
    Command (LinkedList α) Unit := do
  let element ← newElement new item sortKey
  let empty ← isEmpty
  if empty then do
    setFirst element
    setLast element
  else do
    let l ← fields
    let head ← deref l.first
    if sortKey < head.key then do
      setNext element l.first
      setFirst element
    else do
      let returned ← insertAfter element sortKey l.heap.keys.card l.first
      if returned then pure ()
      else do
        setNext l.last element
        setLast element

/-- The item, and what is stored in `*keyPtr` unless that is `NULL`. -/
def sortedRemove (keyPtr : Bool) : Command (LinkedList α) (Option α × Option Int) := do
  let l ← fields
  let element := l.first
  let empty ← isEmpty
  if empty then pure (none, none)
  else do
    let head ← deref l.first
    let thing := head.item
    (if l.first = l.last then do
      setFirst none
      setLast none
    else do
      let e ← deref element
      setFirst e.next)
    let key ← (if keyPtr then do
      let e ← deref element
      pure (some e.key)
    else pure none)
    delete element
    pure (thing, key)

def remove : Command (LinkedList α) (Option α) := do
  let r ← sortedRemove false
  pure r.1

/-- A call of a member function. -/
inductive Call (α : Type)
  | append (item : Option α)
  | prepend (item : Option α)
  | remove
  | sortedInsert (item : Option α) (sortKey : Int)
  | sortedRemove (keyPtr : Bool)

/-- What is returned, and what is stored in `*keyPtr`. -/
abbrev Answer (α : Type) := Option α × Option Int

namespace Call

def run (new : Allocator α) : Call α → Command (LinkedList α) (Answer α)
  | append item => do
    LinkedList.append new item
    pure (none, none)
  | prepend item => do
    LinkedList.prepend new item
    pure (none, none)
  | remove => do
    let thing ← LinkedList.remove
    pure (thing, none)
  | sortedInsert item sortKey => do
    LinkedList.sortedInsert new item sortKey
    pure (none, none)
  | sortedRemove keyPtr => LinkedList.sortedRemove keyPtr

/-- The same call on a sequence. -/
def onSequence : Call α → List (Entry α) → Answer α × List (Entry α)
  | append item, s => ((none, none), s ++ [⟨item, 0⟩])
  | prepend item, s => ((none, none), ⟨item, 0⟩ :: s)
  | remove, s => ((s.head?.bind Entry.item, none), s.tail)
  | sortedInsert item sortKey, s => ((none, none), Keyed.insert Entry.key ⟨item, sortKey⟩ s)
  | sortedRemove keyPtr, s =>
    ((s.head?.bind Entry.item, if keyPtr then s.head?.map Entry.key else none), s.tail)

end Call

/-! ## The chain -/

/-- The elements from a pointer on. -/
abbrev Chain (h : Heap α) (p : Option Address) (l : List (Address × Entry α)) : Prop :=
  Linked.Path ListElement.next ListElement.toEntry h p l none

open Linked (addresses)

/-- The elements of the list are the cells of a chain that ends. Everything else on the heap is
as it was in `rest`, where none of them was in use. -/
structure Represents (rest : Heap α) (l : LinkedList α) (cells : List (Address × Entry α)) :
    Prop where
  chain : Chain l.heap l.first cells
  last : l.last = (addresses cells).getLast?
  fresh : ∀ a ∈ addresses cells, a ∉ rest
  frame : ∀ a ∉ addresses cells, l.heap.lookup a = rest.lookup a

namespace Represents

variable {rest : Heap α} {l : LinkedList α} {cells : List (Address × Entry α)}

theorem first (h : Represents rest l cells) : l.first = (addresses cells).head? := by
  cases cells with
  | nil => exact h.chain
  | cons x cells => exact h.chain.1

theorem first_eq_none_iff (h : Represents rest l cells) : l.first = none ↔ cells = [] := by
  rw [h.first]
  simp

theorem last_eq_none_iff (h : Represents rest l cells) : l.last = none ↔ cells = [] := by
  rw [h.last]
  simp

theorem nodup (h : Represents rest l cells) : (addresses cells).Nodup := h.chain.nodup

theorem new (heap : Heap α) : Represents heap (new heap) [] where
  chain := rfl
  last := rfl
  fresh a ha := by cases ha
  frame a _ := rfl

end Represents

/-- An element that is on the heap already, but not yet in the chain. -/
structure Beside (rest : Heap α) (l : LinkedList α) (cells : List (Address × Entry α))
    (element : Address) (x : Entry α) : Prop where
  chain : Chain l.heap l.first cells
  last : l.last = (addresses cells).getLast?
  cell : l.heap.lookup element = some ⟨x, none⟩
  apart : element ∉ addresses cells
  fresh : ∀ a, a = element ∨ a ∈ addresses cells → a ∉ rest
  frame : ∀ a, a ≠ element → a ∉ addresses cells → l.heap.lookup a = rest.lookup a

section

variable {rest : Heap α} {l : LinkedList α} {cells : List (Address × Entry α)} {element a : Address}
  {x : Entry α} {e : ListElement α} {q : Option Address}

theorem deref_of_lookup (h : l.heap.lookup a = some e) : deref (some a) l = some (e, l) := by
  simp only [deref, Option.bind_some, h, Option.map_some]

theorem setNext_of_lookup (h : l.heap.lookup a = some e) : setNext (some a) q l =
    some ((), { l with heap := l.heap.insert a { e with next := q } }) := by
  rw [setNext, Command.bind_of_some (deref_of_lookup h)]
  rfl

theorem delete_of_lookup (h : l.heap.lookup a = some e) :
    delete (some a) l = some ((), { l with heap := l.heap.erase a }) := by
  rw [delete, Command.bind_of_some (deref_of_lookup h)]
  rfl

theorem Represents.newElement (h : Represents rest l cells) (new : Allocator α) (item : Option α)
    (sortKey : Int) : ∃ element l', newElement new item sortKey l = some (some element, l') ∧
      l'.first = l.first ∧ Beside rest l' cells element ⟨item, sortKey⟩ := by
  have hnew := (new l.heap).2
  have happart : (new l.heap).1 ∉ addresses cells := fun hmem => hnew (h.chain.mem hmem)
  refine ⟨(new l.heap).1, _, rfl, rfl, h.chain.insert happart _, h.last, Finmap.lookup_insert _,
    happart, ?_, ?_⟩
  · rintro a (rfl | ha)
    · intro hmem
      rw [← Finmap.lookup_isSome, ← h.frame _ happart, Finmap.lookup_isSome] at hmem
      exact hnew hmem
    · exact h.fresh a ha
  · intro a hne ha
    exact (Finmap.lookup_insert_of_ne _ hne).trans (h.frame a ha)

/-- The first element of all. -/
theorem Beside.alone (h : Beside rest l [] element x) :
    Represents rest { l with first := some element, last := some element } [(element, x)] where
  chain := ⟨rfl, _, h.cell, rfl, rfl⟩
  last := rfl
  fresh a ha := h.fresh a (.inl (List.mem_singleton.mp ha))
  frame a ha := h.frame a (fun he => ha (List.mem_singleton.mpr he)) (List.not_mem_nil)

/-- The links of the others are left alone by a change of the new element. -/
theorem Beside.front (h : Beside rest l cells element x) (hcells : cells ≠ []) :
    Represents rest { l with
      first := some element
      heap := l.heap.insert element { toEntry := x, next := l.first } }
      ((element, x) :: cells) where
  chain := ⟨rfl, _, Finmap.lookup_insert _, rfl, h.chain.insert h.apart _⟩
  last := by
    obtain ⟨y, cells, rfl⟩ := List.exists_cons_of_ne_nil hcells
    exact h.last.trans (by simp)
  fresh a ha := h.fresh a (List.mem_cons.mp ha)
  frame a ha := by
    have hne : a ≠ element := fun he => ha (List.mem_cons.mpr (.inl he))
    exact (Finmap.lookup_insert_of_ne _ hne).trans
      (h.frame a hne fun hmem => ha (List.mem_cons.mpr (.inr hmem)))

/-- Behind the last element of the chain. -/
theorem Beside.behind (h : Beside rest l cells element x) (hcells : cells ≠ []) : ∃ l',
    (do setNext l.last (some element)
        setLast (some element) : Command (LinkedList α) Unit) l = some ((), l') ∧
      Represents rest l' (cells ++ [(element, x)]) := by
  obtain rfl | ⟨init, ⟨a, v⟩, rfl⟩ := List.eq_nil_or_concat cells
  · exact absurd rfl hcells
  rw [List.concat_eq_append] at h ⊢
  obtain ⟨e, he, hv, hend⟩ := h.chain.concat_lookup
  have hlast : l.last = some a := h.last.trans (by simp)
  have hae : a ≠ element := by
    rintro rfl
    exact h.apart (by simp)
  rw [hlast, Command.bind_of_some (setNext_of_lookup he)]
  refine ⟨_, rfl, ?_, by simp, ?_, ?_⟩
  · rw [List.append_assoc]
    exact h.chain.splice he h.cell h.apart rfl rfl hend.symm
  · intro b hb
    rw [addresses, List.map_append, List.mem_append] at hb
    exact h.fresh b (hb.symm.imp_left List.mem_singleton.mp)
  · intro b hb
    rw [addresses, List.map_append, List.mem_append, not_or] at hb
    have hne : b ≠ a := by
      rintro rfl
      exact hb.1 (by simp)
    refine (Finmap.lookup_insert_of_ne _ hne).trans (h.frame b ?_ hb.1)
    rintro rfl
    exact hb.2 (by simp)

/-- The key of an element. -/
def keyOf (c : Address × Entry α) : Int := c.2.key

/-- One round of the loop, unless `a` is the last element. -/
theorem insertAfter_step {b : Address} {f : ListElement α} (element : Address) (sortKey : Int)
    (fuel : ℕ) (he : l.heap.lookup a = some e) (hnext : e.next = some b)
    (hf : l.heap.lookup b = some f) :
    insertAfter (some element) sortKey (fuel + 1) (some a) l =
      (if sortKey < f.key then do
        setNext (some element) e.next
        setNext (some a) (some element)
        pure true
      else insertAfter (some element) sortKey fuel e.next : Command (LinkedList α) Bool) l := by
  have hmore : e.next ≠ none := by simp [hnext]
  have hfollowing : deref e.next l = some (f, l) := by
    rw [hnext]
    exact deref_of_lookup hf
  rw [insertAfter, Command.bind_of_some (deref_of_lookup he), if_neg hmore,
    Command.bind_of_some hfollowing]

/-- The loop goes to the first element with a bigger key, if there is one behind `a`, and puts the
new one in front of it. -/
theorem insertAfter_spec {fuel : ℕ} {v : Entry α} (pre : List (Address × Entry α))
    (hchain : Chain l.heap l.first (pre ++ (a, v) :: cells))
    (hcell : l.heap.lookup element = some ⟨x, none⟩)
    (hapart : element ∉ addresses (pre ++ (a, v) :: cells)) (hfuel : cells.length < fuel) :
    (insertAfter (some element) x.key fuel (some a) l = some (false, l) ∧
      ∀ c ∈ cells, c.2.key ≤ x.key) ∨
    ∃ h', insertAfter (some element) x.key fuel (some a) l = some (true, { l with heap := h' }) ∧
      Chain h' l.first (pre ++ (a, v) :: Keyed.insert keyOf (element, x) cells) ∧
      (addresses (Keyed.insert keyOf (element, x) cells)).getLast? = (addresses cells).getLast? ∧
      ∀ b, b ≠ element → b ∉ addresses (pre ++ (a, v) :: cells) →
        h'.lookup b = l.heap.lookup b := by
  induction cells generalizing pre a v fuel with
  | nil =>
    obtain ⟨n, rfl⟩ := Nat.exists_eq_add_of_lt hfuel
    obtain ⟨e, he, -, hend⟩ := hchain.concat_lookup
    refine .inl ⟨?_, by simp⟩
    rw [List.length_nil, Nat.zero_add, insertAfter, Command.bind_of_some (deref_of_lookup he),
      if_pos hend]
    rfl
  | cons y cells ih =>
    obtain ⟨n, rfl⟩ : ∃ n, fuel = n + 1 := ⟨fuel - 1, by omega⟩
    obtain ⟨b, y⟩ := y
    obtain ⟨r, -, hr, e, he, hv, hnext, f, hf, hy, -⟩ := Linked.path_append.mp hchain
    have hloop := insertAfter_step element x.key n he hnext hf
    have hfkey : f.key = y.key := congrArg Entry.key hy
    by_cases hlt : x.key < y.key
    · have hae : a ≠ element := by
        rintro rfl
        exact hapart (by simp)
      have ha : (l.heap.insert element { toEntry := x, next := e.next }).lookup a = some e :=
        (Finmap.lookup_insert_of_ne _ hae).trans he
      rw [if_pos (hfkey ▸ hlt), Command.bind_of_some (setNext_of_lookup hcell),
        Command.bind_of_some (setNext_of_lookup ha)] at hloop
      have hinsert : Keyed.insert keyOf (element, x) ((b, y) :: cells) =
          (element, x) :: (b, y) :: cells := Keyed.insert_cons_of_lt hlt
      rw [hinsert]
      refine .inr ⟨_, hloop, ?_, by simp [List.getLast?_cons], ?_⟩
      · exact (hchain.insert hapart _).splice ha (Finmap.lookup_insert _) hapart rfl rfl rfl
      · intro c hce hc
        have hca : c ≠ a := by
          rintro rfl
          exact hc (by simp)
        exact (Finmap.lookup_insert_of_ne _ hca).trans (Finmap.lookup_insert_of_ne _ hce)
    · have hassoc : pre ++ (a, v) :: (b, y) :: cells = pre ++ [(a, v)] ++ (b, y) :: cells := by simp
      rw [hassoc] at hchain hapart
      rw [if_neg (hfkey ▸ hlt), hnext] at hloop
      have hinsert : Keyed.insert keyOf (element, x) ((b, y) :: cells) =
          (b, y) :: Keyed.insert keyOf (element, x) cells :=
        Keyed.insert_cons_of_le (not_lt.mp hlt)
      rw [hloop, hinsert]
      have hlen : cells.length < n := Nat.lt_of_succ_lt_succ hfuel
      obtain ⟨hrun, hall⟩ | ⟨h', hrun, hchain', hlast, hframe⟩ := ih _ hchain hapart hlen
      · refine .inl ⟨hrun, fun c hc => ?_⟩
        rcases List.mem_cons.mp hc with rfl | hc
        · exact not_lt.mp hlt
        · exact hall c hc
      · refine .inr ⟨h', hrun, by simpa using hchain', ?_, ?_⟩
        · simp only [addresses, List.map_cons, List.getLast?_cons] at hlast ⊢
          rw [hlast]
        · rw [hassoc]
          exact hframe

theorem fields_apply (l : LinkedList α) : fields l = some (l, l) := rfl

theorem isEmpty_of_none (h : l.first = none) : isEmpty l = some (true, l) := by
  rw [isEmpty, h]
  rfl

theorem isEmpty_of_some {p : Address} (h : l.first = some p) : isEmpty l = some (false, l) := by
  rw [isEmpty, h]
  rfl

/-! ## The operations -/

/-- The list is the sequence `s`. -/
def Shows (rest : Heap α) (l : LinkedList α) (s : List (Entry α)) : Prop :=
  ∃ cells, Represents rest l cells ∧ cells.map Prod.snd = s

variable {s : List (Entry α)}

theorem Shows.append (h : Shows rest l s) (new : Allocator α) (item : Option α) :
    ∃ l', append new item l = some ((), l') ∧ Shows rest l' (s ++ [⟨item, 0⟩]) := by
  obtain ⟨cells, h, rfl⟩ := h
  obtain ⟨element, l₁, hnew, -, hb⟩ := h.newElement new item 0
  rw [LinkedList.append, Command.bind_of_some hnew]
  cases cells with
  | nil =>
    rw [Command.bind_of_some (isEmpty_of_none hb.chain), if_pos rfl]
    exact ⟨_, rfl, _, hb.alone, rfl⟩
  | cons c cells =>
    obtain ⟨l', hrun, hl'⟩ := hb.behind (List.cons_ne_nil c cells)
    rw [Command.bind_of_some (isEmpty_of_some hb.chain.1), if_neg Bool.false_ne_true]
    exact ⟨l', hrun, _, hl', by simp⟩

/-- The new element is put in front of the first one. -/
theorem Beside.putFront {c : Address × Entry α} (h : Beside rest l (c :: cells) element x) :
    ∃ l', (do setNext (some element) l.first
              setFirst (some element) : Command (LinkedList α) Unit) l = some ((), l') ∧
      Represents rest l' ((element, x) :: c :: cells) := by
  rw [Command.bind_of_some (setNext_of_lookup h.cell)]
  exact ⟨_, rfl, h.front (List.cons_ne_nil c cells)⟩

theorem Shows.prepend (h : Shows rest l s) (new : Allocator α) (item : Option α) :
    ∃ l', prepend new item l = some ((), l') ∧ Shows rest l' (⟨item, 0⟩ :: s) := by
  obtain ⟨cells, h, rfl⟩ := h
  obtain ⟨element, l₁, hnew, -, hb⟩ := h.newElement new item 0
  rw [LinkedList.prepend, Command.bind_of_some hnew]
  cases cells with
  | nil =>
    rw [Command.bind_of_some (isEmpty_of_none hb.chain), if_pos rfl]
    exact ⟨_, rfl, _, hb.alone, rfl⟩
  | cons c cells =>
    obtain ⟨l', hrun, hl'⟩ := hb.putFront
    rw [Command.bind_of_some (isEmpty_of_some hb.chain.1), if_neg Bool.false_ne_true]
    exact ⟨l', hrun, _, hl', rfl⟩

/-- The rest of `SortedInsert`, when the new element does not go in front. -/
theorem Beside.insertBehind {v : Entry α} (h : Beside rest l ((a, v) :: cells) element x) :
    ∃ l', (do let returned ← insertAfter (some element) x.key l.heap.keys.card l.first
              if returned then pure ()
              else do
                setNext l.last (some element)
                setLast (some element) : Command (LinkedList α) Unit) l = some ((), l') ∧
      Represents rest l' ((a, v) :: Keyed.insert keyOf (element, x) cells) := by
  have hfirst : l.first = some a := h.chain.1
  have hfuel : cells.length < l.heap.keys.card := h.chain.length_le
  rw [hfirst]
  obtain ⟨hrun, hall⟩ | ⟨h', hrun, hchain, hlast, hframe⟩ :=
    insertAfter_spec [] h.chain h.cell h.apart hfuel
  · obtain ⟨l', hbehind, hl'⟩ := h.behind (List.cons_ne_nil _ _)
    rw [Command.bind_of_some hrun, if_neg Bool.false_ne_true]
    have hend : Keyed.insert keyOf (element, x) cells = cells ++ [(element, x)] :=
      Keyed.insert_of_forall_le hall
    rw [hend]
    exact ⟨l', hbehind, hl'⟩
  · rw [Command.bind_of_some hrun, if_pos rfl]
    have hmem : ∀ b, b ∈ addresses ((a, v) :: Keyed.insert keyOf (element, x) cells) ↔
        b = element ∨ b ∈ addresses ((a, v) :: cells) := by
      intro b
      simp only [addresses, List.map_cons, List.mem_cons, List.mem_map, Keyed.mem_insert]
      constructor
      · rintro (rfl | ⟨c, rfl | hc, rfl⟩)
        · exact .inr (.inl rfl)
        · exact .inl rfl
        · exact .inr (.inr ⟨c, hc, rfl⟩)
      · rintro (rfl | rfl | ⟨c, hc, rfl⟩)
        · exact .inr ⟨_, .inl rfl, rfl⟩
        · exact .inl rfl
        · exact .inr ⟨c, .inr hc, rfl⟩
    refine ⟨_, rfl, hchain, ?_, ?_, ?_⟩
    · refine h.last.trans ?_
      simp only [addresses, List.map_cons, List.getLast?_cons] at hlast ⊢
      rw [hlast]
    · intro b hb
      exact h.fresh b ((hmem b).mp hb)
    · intro b hb
      have hb := not_or.mp (mt (hmem b).mpr hb)
      exact (hframe b hb.1 hb.2).trans (h.frame b hb.1 hb.2)

theorem Shows.sortedInsert (h : Shows rest l s) (new : Allocator α) (item : Option α)
    (sortKey : Int) : ∃ l', sortedInsert new item sortKey l = some ((), l') ∧
      Shows rest l' (Keyed.insert Entry.key ⟨item, sortKey⟩ s) := by
  obtain ⟨cells, h, rfl⟩ := h
  obtain ⟨element, l₁, hnew, -, hb⟩ := h.newElement new item sortKey
  rw [LinkedList.sortedInsert, Command.bind_of_some hnew]
  rw [show Keyed.insert Entry.key ⟨item, sortKey⟩ (cells.map Prod.snd) =
    (Keyed.insert keyOf (element, ⟨item, sortKey⟩) cells).map Prod.snd from
      Keyed.insert_map Prod.snd (fun _ _ => Iff.rfl) (element, _) cells]
  cases cells with
  | nil =>
    rw [Command.bind_of_some (isEmpty_of_none hb.chain), if_pos rfl]
    exact ⟨_, rfl, _, hb.alone, rfl⟩
  | cons c cells =>
    obtain ⟨a, v⟩ := c
    obtain ⟨hfirst, e, he, hv, -⟩ := hb.chain
    have hkey : e.key = v.key := congrArg Entry.key hv
    have hhead : deref l₁.first l₁ = some (e, l₁) := by
      rw [hfirst]
      exact deref_of_lookup he
    rw [Command.bind_of_some (isEmpty_of_some hfirst), if_neg Bool.false_ne_true,
      Command.bind_of_some (fields_apply l₁), Command.bind_of_some hhead, hkey]
    rcases lt_or_ge sortKey v.key with hlt | hle
    · obtain ⟨l', hrun, hl'⟩ := hb.putFront
      rw [if_pos hlt]
      refine ⟨l', hrun, _, hl', congrArg _ ?_⟩
      have hlt' : keyOf (element, ⟨item, sortKey⟩) < keyOf (a, v) := hlt
      exact (Keyed.insert_cons_of_lt hlt').symm
    · obtain ⟨l', hrun, hl'⟩ := hb.insertBehind
      rw [if_neg (not_lt.mpr hle)]
      refine ⟨l', hrun, _, hl', congrArg _ ?_⟩
      have hle' : keyOf (a, v) ≤ keyOf (element, ⟨item, sortKey⟩) := hle
      exact (Keyed.insert_cons_of_le hle').symm

/-- What `SortedRemove` does to `first` and `last`. -/
theorem Represents.unlink (h : Represents rest l ((a, e.toEntry) :: cells))
    (he : l.heap.lookup a = some e) (hend : cells = [] → e.next = none) :
    (if l.first = l.last then do
      setFirst none
      setLast none
    else do
      let e ← deref l.first
      setFirst e.next : Command (LinkedList α) Unit) l =
    some ((), { l with first := e.next, last := (addresses cells).getLast? }) := by
  have hfirst : l.first = some a := h.first
  rw [hfirst, h.last]
  cases cells with
  | nil =>
    have hlast : (addresses [(a, e.toEntry)]).getLast? = some a := rfl
    rw [hlast, if_pos rfl, hend rfl]
    rfl
  | cons c cells =>
    have hlast : (addresses ((a, e.toEntry) :: c :: cells)).getLast? =
        (addresses (c :: cells)).getLast? := by simp [List.getLast?_cons]
    have hne : some a ≠ (addresses (c :: cells)).getLast? := by
      intro heq
      exact (List.nodup_cons.mp h.nodup).1 (List.mem_of_getLast? heq.symm)
    rw [hlast, if_neg hne, Command.bind_of_some (deref_of_lookup he), ← hlast, ← h.last]
    rfl

/-- `if (keyPtr != NULL) *keyPtr = element->key`. -/
theorem storeKey_of_lookup (keyPtr : Bool) (he : l.heap.lookup a = some e) :
    (if keyPtr then do
      let e ← deref (some a)
      pure (some e.key)
    else pure none : Command (LinkedList α) (Option Int)) l =
    some (if keyPtr then some e.key else none, l) := by
  cases keyPtr with
  | false => rfl
  | true =>
    rw [if_pos rfl, Command.bind_of_some (deref_of_lookup he)]
    rfl

/-- The first element goes, and its place on the heap is free again. -/
theorem Represents.sortedRemove {v : Entry α} (h : Represents rest l ((a, v) :: cells))
    (keyPtr : Bool) : ∃ l', sortedRemove keyPtr l =
        some ((v.item, if keyPtr then some v.key else none), l') ∧ Represents rest l' cells := by
  obtain ⟨hfirst, e, he, hv, hchain⟩ := h.chain
  obtain rfl : e.toEntry = v := hv
  have happart : a ∉ addresses cells := (List.nodup_cons.mp h.nodup).1
  have hderef : deref l.first l = some (e, l) := by
    rw [hfirst]
    exact deref_of_lookup he
  have hunlink := h.unlink he fun hcells => by rwa [hcells] at hchain
  have he₁ : ({ l with
      first := e.next, last := (addresses cells).getLast? } : LinkedList α).heap.lookup a = some e := he
  refine ⟨{ l with first := e.next, last := (addresses cells).getLast?, heap := l.heap.erase a },
    ?_, hchain.erase happart, rfl, fun b hb => h.fresh b (List.mem_cons_of_mem a hb), ?_⟩
  · rw [LinkedList.sortedRemove, Command.bind_of_some (fields_apply l),
      Command.bind_of_some (isEmpty_of_some hfirst), if_neg Bool.false_ne_true,
      Command.bind_of_some hderef, Command.bind_of_some hunlink, hfirst,
      Command.bind_of_some (storeKey_of_lookup keyPtr he₁),
      Command.bind_of_some (delete_of_lookup he₁)]
    rfl
  · intro b hb
    by_cases hba : b = a
    · subst hba
      exact (Finmap.lookup_erase b l.heap).trans
        (Finmap.lookup_eq_none.mpr (h.fresh b List.mem_cons_self)).symm
    · refine (Finmap.lookup_erase_ne hba).trans (h.frame b fun hmem => ?_)
      exact hb ((List.mem_cons.mp hmem).resolve_left hba)

theorem Shows.sortedRemove (h : Shows rest l s) (keyPtr : Bool) :
    ∃ l', sortedRemove keyPtr l = some ((s.head?.bind Entry.item,
        if keyPtr then s.head?.map Entry.key else none), l') ∧ Shows rest l' s.tail := by
  obtain ⟨cells, h, rfl⟩ := h
  cases cells with
  | nil =>
    refine ⟨l, ?_, [], h, rfl⟩
    rw [LinkedList.sortedRemove, Command.bind_of_some (fields_apply l),
      Command.bind_of_some (isEmpty_of_none h.chain), if_pos rfl]
    cases keyPtr <;> rfl
  | cons c cells =>
    obtain ⟨l', hrun, hl'⟩ := h.sortedRemove keyPtr
    exact ⟨l', hrun, cells, hl', rfl⟩

/-- A call on the list is a call on the sequence. -/
theorem Shows.run (h : Shows rest l s) (new : Allocator α) (call : Call α) :
    ∃ l', call.run new l = some ((call.onSequence s).1, l') ∧
      Shows rest l' (call.onSequence s).2 := by
  cases call with
  | append item =>
    obtain ⟨l', hrun, hl'⟩ := h.append new item
    exact ⟨l', Command.bind_of_some hrun, hl'⟩
  | prepend item =>
    obtain ⟨l', hrun, hl'⟩ := h.prepend new item
    exact ⟨l', Command.bind_of_some hrun, hl'⟩
  | remove =>
    obtain ⟨l', hrun, hl'⟩ := h.sortedRemove false
    refine ⟨l', ?_, hl'⟩
    rw [Call.run, LinkedList.remove, bind_assoc, Command.bind_of_some hrun]
    rfl
  | sortedInsert item sortKey =>
    obtain ⟨l', hrun, hl'⟩ := h.sortedInsert new item sortKey
    exact ⟨l', Command.bind_of_some hrun, hl'⟩
  | sortedRemove keyPtr => exact h.sortedRemove keyPtr

end

/-! ## Sequences of calls -/

open Command (replies)
open Keyed (Sorted having)

namespace Call

/-- What a call puts into the list. -/
def entries : Call α → List (Entry α)
  | append item | prepend item => [⟨item, 0⟩]
  | sortedInsert item sortKey => [⟨item, sortKey⟩]
  | remove | sortedRemove _ => []

/-- Elements come in through `SortedInsert` alone. -/
def KeepsSorted : Call α → Prop
  | append _ | prepend _ => False
  | _ => True

/-- The call is `SortedInsert`. -/
def Inserts : Call α → Prop
  | sortedInsert _ _ => True
  | _ => False

variable {call : Call α} {s : List (Entry α)}

theorem Inserts.keepsSorted (h : call.Inserts) : call.KeepsSorted := by
  cases call with
  | sortedInsert item sortKey => trivial
  | _ => cases h

theorem sorted_onSequence (h : call.KeepsSorted) (hs : Sorted Entry.key s) :
    Sorted Entry.key (call.onSequence s).2 := by
  cases call with
  | append item => cases h
  | prepend item => cases h
  | remove => exact hs.tail
  | sortedInsert item sortKey => exact hs.insert _
  | sortedRemove keyPtr => exact hs.tail

theorem having_onSequence (h : call.KeepsSorted) (hs : Sorted Entry.key s) (k : Int) :
    having Entry.key k (call.onSequence s).2 <:+
      having Entry.key k s ++ having Entry.key k call.entries := by
  cases call with
  | append item => cases h
  | prepend item => cases h
  | remove => exact (Keyed.having_tail _ k s).trans (by simp [entries, having])
  | sortedInsert item sortKey => exact (hs.having_insert _ k).symm ▸ List.suffix_rfl
  | sortedRemove keyPtr => exact (Keyed.having_tail _ k s).trans (by simp [entries, having])

theorem Inserts.having_onSequence (h : call.Inserts) (hs : Sorted Entry.key s) (k : Int) :
    having Entry.key k (call.onSequence s).2 =
      having Entry.key k s ++ having Entry.key k call.entries := by
  cases call with
  | sortedInsert item sortKey => exact hs.having_insert _ k
  | _ => cases h

end Call

variable {calls : List (Allocator α × Call α)} {s : List (Entry α)}

/-- The calls on a sequence. -/
abbrev onSequence (calls : List (Allocator α × Call α)) :
    List (Entry α) → List (Answer α) × List (Entry α) :=
  replies (fun c => c.2.onSequence) calls

/-- What the calls put in, in their order. -/
abbrev entries (calls : List (Allocator α × Call α)) : List (Entry α) :=
  calls.flatMap fun c => c.2.entries

theorem having_entries_cons (k : Int) (c : Allocator α × Call α)
    (calls : List (Allocator α × Call α)) :
    having Entry.key k (entries (c :: calls)) =
      having Entry.key k c.2.entries ++ having Entry.key k (entries calls) := by
  rw [entries, List.flatMap_cons]
  exact List.filter_append _ _

/-- Sorted insertion alone keeps the sequence sorted. Of each key the sequence has those that
were put in last, in their order. -/
theorem sorted_onSequence (h : ∀ c ∈ calls, c.2.KeepsSorted) (hs : Sorted Entry.key s) :
    Sorted Entry.key (onSequence calls s).2 ∧ ∀ k,
      having Entry.key k (onSequence calls s).2 <:+
        having Entry.key k s ++ having Entry.key k (entries calls) := by
  induction calls generalizing s with
  | nil => exact ⟨hs, fun k => by simp [onSequence, replies, having]⟩
  | cons c calls ih =>
    have hc := h c List.mem_cons_self
    obtain ⟨hsorted, hhaving⟩ :=
      ih (fun d hd => h d (List.mem_cons_of_mem c hd)) (c.2.sorted_onSequence hc hs)
    refine ⟨hsorted, fun k => (hhaving k).trans ?_⟩
    obtain ⟨before, hbefore⟩ := c.2.having_onSequence hc hs k
    refine ⟨before, ?_⟩
    rw [← List.append_assoc, hbefore, having_entries_cons, List.append_assoc]

/-- Without removals these are all of them. -/
theorem having_onSequence (h : ∀ c ∈ calls, c.2.Inserts) (hs : Sorted Entry.key s) (k : Int) :
    having Entry.key k (onSequence calls s).2 =
      having Entry.key k s ++ having Entry.key k (entries calls) := by
  induction calls generalizing s with
  | nil => simp [onSequence, replies, having]
  | cons c calls ih =>
    have hc := h c List.mem_cons_self
    have hrest := ih (fun d hd => h d (List.mem_cons_of_mem c hd))
      (c.2.sorted_onSequence hc.keepsSorted hs)
    rw [hc.having_onSequence hs k] at hrest
    rw [having_entries_cons, ← List.append_assoc]
    exact hrest

/-- A list is the sequence of what was put in and not taken out. Its elements are a chain of
different cells that ends, from the first to the last, wherever `new` puts them; nothing else on
the heap changes. What is put in with `SortedInsert` alone is sorted, and elements of one key are
in the order in which they came. -/
theorem list_refines_sequence (rest : Heap α) (calls : List (Allocator α × Call α)) :
    ∃ l cells, calls.mapM (fun c => c.2.run c.1) (new rest) = some ((onSequence calls []).1, l) ∧
      Represents rest l cells ∧ cells.map Prod.snd = (onSequence calls []).2 ∧
      (addresses cells).Nodup ∧ (l.first = none ↔ (onSequence calls []).2 = []) ∧
      (l.last = none ↔ (onSequence calls []).2 = []) ∧
      ((∀ c ∈ calls, c.2.KeepsSorted) → Sorted Entry.key (onSequence calls []).2 ∧ ∀ k,
        having Entry.key k (onSequence calls []).2 <:+ having Entry.key k (entries calls)) ∧
      ((∀ c ∈ calls, c.2.Inserts) → ∀ k,
        having Entry.key k (onSequence calls []).2 = having Entry.key k (entries calls)) := by
  have hstart : Shows rest (new rest) [] := ⟨[], .new rest, rfl⟩
  obtain ⟨l, hrun, cells, hl, hcells⟩ := Command.mapM_refine
    (fun c (_ : c ∈ calls) l s (h : Shows rest l s) => h.run c.1 c.2) hstart
  have hempty : (onSequence calls []).2 = [] ↔ cells = [] := by
    rw [onSequence, ← hcells, List.map_eq_nil_iff]
  refine ⟨l, cells, hrun, hl, hcells, hl.nodup, hl.first_eq_none_iff.trans hempty.symm,
    hl.last_eq_none_iff.trans hempty.symm, fun h => ?_, fun h k => ?_⟩
  · exact sorted_onSequence h List.Pairwise.nil
  · exact having_onSequence h List.Pairwise.nil k

end LinkedList

end Nachos
