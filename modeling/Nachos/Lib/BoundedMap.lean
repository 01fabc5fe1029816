import Mathlib.Algebra.BigOperators.Group.Multiset.Basic
import Mathlib.Algebra.GroupWithZero.Nat
import Mathlib.Data.Finmap
import Mathlib.Data.Finset.Card
import Mathlib.Data.List.Nodup
import Mathlib.Tactic.Common

/-!
# Bounded maps

Calls that may be refused, maps with room for a number of keys, and the lists of entries
that stand for such a map.
-/

/-- One call after the other: the calls with their answers, and the last state. A call that
is refused changes nothing. -/
def attempts {ι σ : Type*} (step : ι → σ → Option σ) : List ι → σ → List (ι × Bool) × σ
  | [], s => ([], s)
  | i :: is, s =>
    let r := attempts step is ((step i s).getD s)
    ((i, (step i s).isSome) :: r.1, r.2)

section Attempts

variable {ι κ σ τ : Type*} {step : ι → σ → Option σ} {step' : κ → τ → Option τ} {is : List ι}

theorem attempts_concat (is : List ι) (i : ι) (s : σ) :
    attempts step (is ++ [i]) s =
      ((attempts step is s).1 ++ [(i, (step i (attempts step is s).2).isSome)],
        (step i (attempts step is s).2).getD (attempts step is s).2) := by
  induction is generalizing s with
  | nil => rfl
  | cons j is ih =>
    rw [List.cons_append, attempts, ih]
    rfl

/-- The refinement rule: calls that are refused together are answered alike. -/
theorem attempts_refine {R : σ → τ → Prop} {g : ι → κ}
    (hstep : ∀ i ∈ is, ∀ s t, R s t → Option.Rel R (step i s) (step' (g i) t)) {s : σ} {t : τ}
    (h : R s t) :
    (attempts step' (is.map g) t).1 = (attempts step is s).1.map (fun c => (g c.1, c.2)) ∧
      R (attempts step is s).2 (attempts step' (is.map g) t).2 := by
  induction is generalizing s t with
  | nil => exact ⟨rfl, h⟩
  | cons i is ih =>
    have hi := hstep i List.mem_cons_self s t h
    have hstep' := fun j hj => hstep j (List.mem_cons_of_mem i hj)
    simp only [attempts, List.map_cons]
    cases hs : step i s with
    | none =>
      cases ht : step' (g i) t with
      | none =>
        obtain ⟨hhist, hend⟩ := ih hstep' h
        exact ⟨congrArg ((g i, false) :: ·) hhist, hend⟩
      | some t' =>
        rw [hs, ht] at hi
        cases hi
    | some s' =>
      cases ht : step' (g i) t with
      | none =>
        rw [hs, ht] at hi
        cases hi
      | some t' =>
        rw [hs, ht] at hi
        cases hi with
        | some hr =>
          obtain ⟨hhist, hend⟩ := ih hstep' hr
          exact ⟨congrArg ((g i, true) :: ·) hhist, hend⟩

end Attempts

/-- A map with at most `size` keys. -/
structure BoundedMap (κ β : Type*) (size : ℕ) where
  map : Finmap fun _ : κ => β
  card_keys_le : map.keys.card ≤ size

namespace BoundedMap

variable {κ μ β : Type*} [DecidableEq κ] {size : ℕ} {f f' : BoundedMap κ β size} {k k' : κ} {v v' : β}

def empty (κ β : Type*) (size : ℕ) : BoundedMap κ β size := ⟨∅, Nat.zero_le size⟩

def get (f : BoundedMap κ β size) (k : κ) : Option β := f.map.lookup k

def card (f : BoundedMap κ β size) : ℕ := f.map.keys.card

theorem keys_insert (m : Finmap fun _ : κ => β) (k : κ) (v : β) :
    (m.insert k v).keys = insert k m.keys := by
  ext k'
  rw [Finmap.mem_keys, Finmap.mem_insert, Finset.mem_insert, Finmap.mem_keys]

theorem card_keys_insert_le {m : Finmap fun _ : κ => β} (hm : m.keys.card < size) (k : κ) (v : β) :
    (m.insert k v).keys.card ≤ size := by
  rw [keys_insert]
  exact (Finset.card_insert_le k m.keys).trans hm

theorem card_keys_erase_le {m : Finmap fun _ : κ => β} (hm : m.keys.card ≤ size) (k : κ) :
    (m.erase k).keys.card ≤ size := by
  rw [Finmap.keys_erase]
  exact Finset.card_erase_le.trans hm

/-- A new key, if there is room for it. -/
def add (f : BoundedMap κ β size) (k : κ) (v : β) : Option (BoundedMap κ β size) :=
  if h : k ∉ f.map ∧ f.map.keys.card < size then
    some ⟨f.map.insert k v, card_keys_insert_le h.2 k v⟩
  else none

def remove (f : BoundedMap κ β size) (k : κ) : Option (BoundedMap κ β size) :=
  if k ∈ f.map then some ⟨f.map.erase k, card_keys_erase_le f.card_keys_le k⟩ else none

theorem keys_insert_of_mem {m : Finmap fun _ : κ => β} (hk : k ∈ m) (v : β) :
    (m.insert k v).keys = m.keys := by
  rw [keys_insert, Finset.insert_eq_self, Finmap.mem_keys]
  exact hk

/-- Another value for a key that is there. -/
def set (f : BoundedMap κ β size) (k : κ) (v : β) : BoundedMap κ β size :=
  if h : k ∈ f.map then ⟨f.map.insert k v, keys_insert_of_mem h v ▸ f.card_keys_le⟩ else f

/-- What the values weigh together. -/
def total (f : BoundedMap κ β size) (w : β → ℕ) : ℕ := (f.map.entries.map fun e => w e.2).sum

@[simp] theorem get_empty : (empty κ β size).get k = none := Finmap.lookup_empty k

theorem get_eq_none_iff : f.get k = none ↔ k ∉ f.map := Finmap.lookup_eq_none

theorem mem_keys_iff : k ∈ f.map.keys ↔ ∃ v, f.get k = some v := by
  rw [Finmap.mem_keys, Finmap.mem_iff]
  rfl

theorem add_eq_none_iff : f.add k v = none ↔ f.get k ≠ none ∨ f.card = size := by
  have hle := f.card_keys_le
  rw [add, ne_eq, get_eq_none_iff, card]
  by_cases h : k ∉ f.map ∧ f.map.keys.card < size
  · rw [dif_pos h]
    refine iff_of_false (Option.some_ne_none _) ?_
    rintro (hmem | hfull)
    · exact hmem h.1
    · exact absurd hfull h.2.ne
  · rw [dif_neg h]
    refine iff_of_true rfl ?_
    by_cases hmem : k ∉ f.map
    · exact .inr (le_antisymm hle (not_lt.mp fun hlt => h ⟨hmem, hlt⟩))
    · exact .inl hmem

theorem get_add (h : f.add k v = some f') (k' : κ) :
    f'.get k' = if k' = k then some v else f.get k' := by
  rw [add] at h
  split at h
  · cases h
    split
    · rename_i heq
      rw [heq]
      exact Finmap.lookup_insert f.map
    · rename_i hne
      exact Finmap.lookup_insert_of_ne f.map hne
  · cases h

theorem remove_eq_none_iff : f.remove k = none ↔ f.get k = none := by
  rw [remove, get_eq_none_iff]
  split
  · exact iff_of_false (Option.some_ne_none _) (not_not.mpr (by assumption))
  · exact iff_of_true rfl (by assumption)

theorem get_remove (h : f.remove k = some f') (k' : κ) :
    f'.get k' = if k' = k then none else f.get k' := by
  rw [remove] at h
  split at h
  · cases h
    split
    · rename_i heq
      rw [heq]
      exact Finmap.lookup_erase k f.map
    · rename_i hne
      exact Finmap.lookup_erase_ne hne
  · cases h

theorem get_set (h : f.get k = some v) (v' : β) (k' : κ) :
    (f.set k v').get k' = if k' = k then some v' else f.get k' := by
  have hmem : k ∈ f.map := by
    by_contra hk
    rw [get_eq_none_iff.mpr hk] at h
    cases h
  rw [set, dif_pos hmem]
  split
  · rename_i heq
    rw [heq]
    exact Finmap.lookup_insert f.map
  · rename_i hne
    exact Finmap.lookup_insert_of_ne f.map hne

/-! ## Updates -/

inductive Update (κ β : Type*)
  | add (k : κ) (v : β)
  | remove (k : κ)

/-- What a call is about. -/
def Update.key : Update κ β → κ
  | add k _ => k
  | remove k => k

def Update.mapKey (g : μ → κ) : Update μ β → Update κ β
  | add k v => add (g k) v
  | remove k => remove (g k)

def step : Update κ β → BoundedMap κ β size → Option (BoundedMap κ β size)
  | .add k v, f => f.add k v
  | .remove k, f => f.remove k

/-- The last call about `k` that was not refused has added it, with the value `v`. -/
def Stands (hist : List (Update κ β × Bool)) (k : κ) (v : β) : Prop :=
  ∃ before after, hist = before ++ (.add k v, true) :: after ∧
    ∀ c ∈ after, c.2 = true → c.1.key ≠ k

omit [DecidableEq κ] in
theorem not_stands_nil : ¬Stands ([] : List (Update κ β × Bool)) k v := by
  rintro ⟨before, after, heq, -⟩
  simp at heq

omit [DecidableEq κ] in
/-- A call that was refused, or is about another key, does not matter. -/
theorem stands_concat_other {hist : List (Update κ β × Bool)} {c : Update κ β} {b : Bool}
    (hc : b = true → c.key ≠ k) : Stands (hist ++ [(c, b)]) k v ↔ Stands hist k v := by
  constructor
  · rintro ⟨before, after, heq, hafter⟩
    rcases List.eq_nil_or_concat after with rfl | ⟨after, x, rfl⟩
    · obtain ⟨-, hlast⟩ := List.append_inj' heq rfl
      cases hlast
      exact absurd rfl (hc rfl)
    · rw [List.concat_eq_append, ← List.cons_append, ← List.append_assoc] at heq
      obtain ⟨hinit, -⟩ := List.append_inj' heq rfl
      exact ⟨before, after, hinit, fun c hmem => hafter c (by simp [hmem])⟩
  · rintro ⟨before, after, rfl, hafter⟩
    refine ⟨before, after ++ [(c, b)], by simp, fun c' hmem => ?_⟩
    rcases List.mem_append.mp hmem with hmem | hmem
    · exact hafter c' hmem
    · rw [List.mem_singleton.mp hmem]
      exact hc

omit [DecidableEq κ] in
/-- Any other call decides. -/
theorem stands_concat_self {hist : List (Update κ β × Bool)} {c : Update κ β} (hc : c.key = k) :
    Stands (hist ++ [(c, true)]) k v ↔ c = .add k v := by
  constructor
  · rintro ⟨before, after, heq, hafter⟩
    rcases List.eq_nil_or_concat after with rfl | ⟨after, x, rfl⟩
    · obtain ⟨-, hlast⟩ := List.append_inj' heq rfl
      cases hlast
      rfl
    · rw [List.concat_eq_append, ← List.cons_append, ← List.append_assoc] at heq
      obtain ⟨-, hlast⟩ := List.append_inj' heq rfl
      cases hlast
      exact absurd hc (hafter (c, true) (by simp) rfl)
  · rintro rfl
    exact ⟨hist, [], rfl, by simp⟩

/-- One more call, and its line of the history. -/
theorem stands_step {hist : List (Update κ β × Bool)} (c : Update κ β)
    (h : f.get k = some v ↔ Stands hist k v) :
    ((step c f).getD f).get k = some v ↔ Stands (hist ++ [(c, (step c f).isSome)]) k v := by
  cases hstep : step c f with
  | none =>
    refine h.trans (stands_concat_other ?_).symm
    intro hb
    cases hb
  | some f' =>
    show f'.get k = some v ↔ Stands (hist ++ [(c, true)]) k v
    by_cases hkey : c.key = k
    · rw [stands_concat_self hkey]
      subst hkey
      cases c with
      | add k' v' =>
        rw [get_add hstep, Update.key, if_pos rfl]
        simp
      | remove k' =>
        rw [get_remove hstep, Update.key, if_pos rfl]
        simp
    · rw [stands_concat_other fun _ => hkey, ← h]
      cases c with
      | add k' v' =>
        have hne : k ≠ k' := Ne.symm hkey
        rw [get_add hstep, if_neg hne]
      | remove k' =>
        have hne : k ≠ k' := Ne.symm hkey
        rw [get_remove hstep, if_neg hne]

/-- A map holds what its history says. -/
theorem get_attempts (calls : List (Update κ β)) (k : κ) (v : β) :
    (attempts step calls (empty κ β size)).2.get k = some v ↔
      Stands (attempts step calls (empty κ β size)).1 k v := by
  induction calls using List.reverseRecOn with
  | nil => exact iff_of_false (by simp [attempts]) not_stands_nil
  | append_singleton calls c ih =>
    rw [attempts_concat]
    exact stands_step c ih

/-! ## Entries -/

/-- The entries of a map, in any order. -/
structure Lists (l : List (κ × β)) (f : BoundedMap κ β size) : Prop where
  nodup : (l.map Prod.fst).Nodup
  mem : ∀ k v, (k, v) ∈ l ↔ f.get k = some v

theorem lists_empty : Lists [] (empty κ β size) where
  nodup := List.nodup_nil
  mem k v := by simp

variable {l l' : List (κ × β)}

theorem Lists.perm (h : Lists l f) (hp : l.Perm l') : Lists l' f where
  nodup := (hp.map Prod.fst).nodup_iff.mp h.nodup
  mem k v := hp.mem_iff.symm.trans (h.mem k v)

theorem Lists.get_eq_none_iff (h : Lists l f) : f.get k = none ↔ ∀ v, (k, v) ∉ l := by
  rw [Option.eq_none_iff_forall_ne_some]
  exact forall_congr' fun v => not_congr (h.mem k v).symm

theorem Lists.length (h : Lists l f) : l.length = f.card := by
  have hkeys : f.map.keys = (l.map Prod.fst).toFinset := by
    ext k
    rw [mem_keys_iff, List.mem_toFinset, List.mem_map]
    constructor
    · rintro ⟨v, hv⟩
      exact ⟨(k, v), (h.mem k v).mpr hv, rfl⟩
    · rintro ⟨⟨k', v⟩, hmem, rfl⟩
      exact ⟨v, (h.mem k' v).mp hmem⟩
  rw [card, hkeys, List.toFinset_card_of_nodup h.nodup, List.length_map]

theorem Lists.add (h : Lists l f) (hadd : f.add k v = some f') : Lists ((k, v) :: l) f' := by
  have hnew : f.get k = none := by
    by_contra hk
    rw [add_eq_none_iff.mpr (.inl hk)] at hadd
    cases hadd
  have hnot := h.get_eq_none_iff.mp hnew
  constructor
  · refine List.nodup_cons.mpr ⟨fun hmem => ?_, h.nodup⟩
    obtain ⟨⟨k', v'⟩, hin, rfl⟩ := List.mem_map.mp hmem
    exact hnot v' hin
  · intro k' v'
    rw [get_add hadd, List.mem_cons, h.mem]
    split
    · rename_i heq
      subst heq
      rw [hnew]
      simp [eq_comm]
    · rename_i hne
      simp [hne]

theorem Lists.remove (h : Lists ((k, v) :: l) f) (hremove : f.remove k = some f') :
    Lists l f' := by
  have hnodup := h.nodup
  rw [List.map_cons, List.nodup_cons] at hnodup
  refine ⟨hnodup.2, fun k' v' => ?_⟩
  rw [get_remove hremove]
  split
  · rename_i heq
    subst heq
    refine iff_of_false ?_ (by simp)
    intro hin
    exact hnodup.1 (List.mem_map.mpr ⟨_, hin, rfl⟩)
  · rename_i hne
    rw [← h.mem, List.mem_cons]
    simp [hne]

/-- Each entry counts once. -/
theorem Lists.total (h : Lists l f) (w : β → ℕ) : f.total w = (l.map fun e => w e.2).sum := by
  have hnodup : (l.map fun e => (⟨e.1, e.2⟩ : (_ : κ) × β)).Nodup := by
    refine (List.Nodup.of_map _ h.nodup).map fun e e' heq => ?_
    simpa [Prod.ext_iff] using heq
  have hentries : f.map.entries = (l.map fun e => (⟨e.1, e.2⟩ : (_ : κ) × β) : List _) := by
    rw [Multiset.Nodup.ext f.map.nodup_entries (Multiset.coe_nodup.mpr hnodup)]
    rintro ⟨k, v⟩
    rw [← Finmap.lookup_eq_some_iff, Multiset.mem_coe, List.mem_map]
    refine (h.mem k v).symm.trans ⟨fun hmem => ⟨(k, v), hmem, rfl⟩, ?_⟩
    rintro ⟨⟨k', v'⟩, hmem, heq⟩
    cases heq
    exact hmem
  rw [BoundedMap.total, hentries, Multiset.map_coe, Multiset.sum_coe, List.map_map]
  rfl

/-- A value changes in its place. -/
theorem Lists.set (h : Lists l f) (hget : f.get k = some v) (v' : β) :
    Lists (l.map fun e => (e.1, if e.1 = k then v' else e.2)) (f.set k v') where
  nodup := by
    rw [List.map_map]
    exact h.nodup
  mem k' w := by
    rw [get_set hget, List.mem_map]
    constructor
    · rintro ⟨⟨k'', u⟩, hmem, heq⟩
      simp only [Prod.mk.injEq] at heq
      obtain ⟨rfl, rfl⟩ := heq
      split
      · rfl
      · exact (h.mem k'' u).mp hmem
    · intro hw
      split at hw
      · rename_i heq
        subst heq
        rw [Option.some.injEq] at hw
        exact ⟨(k', v), (h.mem k' v).mpr hget, by rw [if_pos rfl, hw]⟩
      · rename_i hne
        exact ⟨(k', w), (h.mem k' w).mpr hw, by rw [if_neg hne]⟩

/-- The entries of a table in which one has changed. -/
theorem filterMap_modify {α γ : Type*} (held : α → Option γ) (g : α → α) {t : List α} {i : ℕ}
    (hi : i < t.length) : ∃ a b, t.filterMap held = a ++ (held t[i]).toList ++ b ∧
      (t.modify i g).filterMap held = a ++ (held (g t[i])).toList ++ b := by
  have hone : ∀ x : α, [x].filterMap held = (held x).toList := by
    intro x
    cases hx : held x <;> simp [hx]
  have ht : t = t.take i ++ [t[i]] ++ t.drop (i + 1) := by simp
  refine ⟨(t.take i).filterMap held, (t.drop (i + 1)).filterMap held, ?_, ?_⟩
  · conv_lhs => rw [ht]
    rw [List.filterMap_append, List.filterMap_append, hone]
  · rw [List.modify_eq_take_cons_drop hi, ← List.singleton_append, ← List.append_assoc,
      List.filterMap_append, List.filterMap_append, hone]

section Tables

variable {α : Type*} {held : α → Option (κ × β)} {g : α → α} {t : List α} {i : ℕ}

/-- A free entry is taken. -/
theorem Lists.fill (h : Lists (t.filterMap held) f) (hi : i < t.length) (hfree : held t[i] = none)
    (hg : held (g t[i]) = some (k, v)) (hadd : f.add k v = some f') :
    Lists ((t.modify i g).filterMap held) f' := by
  obtain ⟨a, b, ht, hm⟩ := filterMap_modify held g hi
  rw [hfree, Option.toList_none, List.append_nil] at ht
  rw [hg, Option.toList_some] at hm
  rw [ht] at h
  rw [hm, List.append_assoc]
  exact (h.add hadd).perm List.perm_middle.symm

/-- An entry is freed. -/
theorem Lists.free (h : Lists (t.filterMap held) f) (hi : i < t.length)
    (hused : held t[i] = some (k, v)) (hg : held (g t[i]) = none) (hremove : f.remove k = some f') :
    Lists ((t.modify i g).filterMap held) f' := by
  obtain ⟨a, b, ht, hm⟩ := filterMap_modify held g hi
  rw [hused, Option.toList_some, List.append_assoc] at ht
  rw [hg, Option.toList_none, List.append_nil] at hm
  rw [ht] at h
  rw [hm]
  exact (h.perm List.perm_middle).remove hremove

/-- The entry of a key holds another value. -/
theorem Lists.replace {held' : α → Option (κ × β)} (h : Lists (t.filterMap held) f)
    (hget : f.get k = some v)
    (hc : ∀ e ∈ t, held' e = (held e).map fun r => (r.1, if r.1 = k then v' else r.2)) :
    Lists (t.filterMap held') (f.set k v') := by
  rw [List.filterMap_congr hc, ← List.map_filterMap]
  exact h.set hget v'

/-- The map is full when every entry is taken. -/
theorem Lists.card_eq_iff (h : Lists (t.filterMap held) f) :
    f.card = t.length ↔ ∀ e ∈ t, (held e).isSome = true := by
  rw [← h.length]
  exact List.filterMap_length_eq_length

end Tables

end BoundedMap
