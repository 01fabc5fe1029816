import Mathlib.Data.Finmap
import Mathlib.Data.Finset.Card
import Mathlib.Data.List.Nodup
import Mathlib.Tactic.Common

/-!
# Linked cells

A heap of cells each of which has a value and a link to another cell, or to none. The cells
along the links from a pointer are a path.
-/
namespace Linked

variable {A C V : Type*} [DecidableEq A]

/-- Cells by their addresses. -/
abbrev Heap (A C : Type*) := Finmap fun _ : A => C

variable (next : C → Option A) (value : C → V)

/-- From `p` on the links go through the cells of the list, with these values, to `q`. -/
def Path (h : Heap A C) : Option A → List (A × V) → Option A → Prop
  | p, [], q => p = q
  | p, x :: l, q => p = some x.1 ∧ ∃ c, h.lookup x.1 = some c ∧ value c = x.2 ∧
      Path h (next c) l q

/-- The addresses of the cells of a path. -/
abbrev addresses (l : List (A × V)) : List A := l.map Prod.fst

variable {next value} {h h' : Heap A C} {p q r : Option A} {l l' : List (A × V)} {a e : A}
  {v w : V} {c d : C}

theorem path_append : Path next value h p (l ++ l') q ↔
    ∃ r, Path next value h p l r ∧ Path next value h r l' q := by
  induction l generalizing p with
  | nil => simp [Path]
  | cons x l ih =>
    simp only [List.cons_append, Path, ih]
    constructor
    · rintro ⟨hp, c, hc, hv, r, hl, hl'⟩
      exact ⟨r, ⟨hp, c, hc, hv, hl⟩, hl'⟩
    · rintro ⟨r, ⟨hp, c, hc, hv, hl⟩, hl'⟩
      exact ⟨hp, c, hc, hv, r, hl, hl'⟩

/-- A path is still there when its cells are. -/
theorem Path.congr (hp : Path next value h p l q)
    (hh : ∀ a ∈ addresses l, h'.lookup a = h.lookup a) : Path next value h' p l q := by
  induction l generalizing p with
  | nil => exact hp
  | cons x l ih =>
    obtain ⟨hx, c, hc, hv, hl⟩ := hp
    have hhead := hh x.1 (by simp)
    exact ⟨hx, c, hhead.trans hc, hv, ih hl fun a ha => hh a (by simp [ha])⟩

theorem Path.insert (hp : Path next value h p l q) (ha : a ∉ addresses l) (c : C) :
    Path next value (h.insert a c) p l q := by
  refine hp.congr fun b hb => Finmap.lookup_insert_of_ne h ?_
  rintro rfl
  exact ha hb

theorem Path.erase (hp : Path next value h p l q) (ha : a ∉ addresses l) :
    Path next value (h.erase a) p l q := by
  refine hp.congr fun b hb => Finmap.lookup_erase_ne ?_
  rintro rfl
  exact ha hb

theorem Path.mem (hp : Path next value h p l q) (ha : a ∈ addresses l) : a ∈ h := by
  induction l generalizing p with
  | nil => cases ha
  | cons x l ih =>
    obtain ⟨-, c, hc, -, hl⟩ := hp
    rcases List.mem_cons.mp ha with rfl | ha
    · exact Finmap.mem_iff.mpr ⟨c, hc⟩
    · exact ih hl ha

/-- From a pointer there is one way to the end. -/
theorem Path.unique (hp : Path next value h p l none) (hp' : Path next value h p l' none) :
    l = l' := by
  induction l generalizing p l' with
  | nil =>
    cases l' with
    | nil => rfl
    | cons x l' =>
      cases hp.symm.trans hp'.1
  | cons x l ih =>
    obtain ⟨rfl, c, hc, hv, hl⟩ := hp
    cases l' with
    | nil => cases hp'
    | cons y l' =>
      obtain ⟨hy, c', hc', hv', hl'⟩ := hp'
      have hxy : x.1 = y.1 := Option.some.inj hy
      rw [← hxy, hc, Option.some.injEq] at hc'
      subst hc'
      rw [ih hl hl', Prod.ext hxy (hv.symm.trans hv')]

/-- A path that ends has no cycle: a cell that came again would have two ways to the end. -/
theorem Path.nodup (hp : Path next value h p l none) : (addresses l).Nodup := by
  induction l generalizing p with
  | nil => exact List.nodup_nil
  | cons x l ih =>
    have hrest := hp
    obtain ⟨rfl, c, hc, hv, hl⟩ := hp
    refine List.nodup_cons.mpr ⟨fun hmem => ?_, ih hl⟩
    obtain ⟨y, hy, hyx⟩ := List.mem_map.mp hmem
    obtain ⟨s, t, rfl⟩ := List.append_of_mem hy
    obtain ⟨r, -, ht⟩ := path_append.mp hl
    have hr : r = some x.1 := ht.1.trans (congrArg some hyx)
    rw [hr] at ht
    have hlength := congrArg List.length (hrest.unique ht)
    simp only [List.length_cons, List.length_append] at hlength
    omega

theorem Path.length_le (hp : Path next value h p l none) : l.length ≤ h.keys.card := by
  have hsub : (addresses l).toFinset ⊆ h.keys := by
    intro a ha
    exact Finmap.mem_keys.mpr (hp.mem (List.mem_toFinset.mp ha))
  have hcard := Finset.card_le_card hsub
  rwa [List.toFinset_card_of_nodup hp.nodup, List.length_map] at hcard

/-- The end of a path. -/
theorem Path.concat_lookup (hp : Path next value h p (l ++ [(a, v)]) q) :
    ∃ c, h.lookup a = some c ∧ value c = v ∧ next c = q := by
  obtain ⟨r, -, -, c, hc, hv, hq⟩ := path_append.mp hp
  exact ⟨c, hc, hv, hq⟩

/-- A cell that leads to where one of a path does is put in behind it by a link to it. -/
theorem Path.splice (hp : Path next value h p (l ++ (a, v) :: l') none)
    (ha : h.lookup a = some c) (hd : h.lookup e = some d)
    (he : e ∉ addresses (l ++ (a, v) :: l')) {c' : C} (hvalue : value c' = value c)
    (hnext : next c' = some e) (hlink : next d = next c) :
    Path next value (h.insert a c') p (l ++ (a, v) :: (e, value d) :: l') none := by
  have hnodup := hp.nodup
  simp only [addresses, List.map_append, List.map_cons, List.mem_append, List.mem_cons, not_or]
    at he hnodup
  obtain ⟨-, hcons, hdisjoint⟩ := List.nodup_append.mp hnodup
  have hal : a ∉ addresses l := fun hmem => hdisjoint a hmem a List.mem_cons_self rfl
  have hal' : a ∉ addresses l' := (List.nodup_cons.mp hcons).1
  obtain ⟨r, hl, hr, b, hb, hv, htail⟩ := path_append.mp hp
  rw [ha, Option.some.injEq] at hb
  subst hb
  refine path_append.mpr ⟨r, hl.insert hal c', hr, c', Finmap.lookup_insert _,
    hvalue.trans hv, hnext, d, ?_, rfl, ?_⟩
  · rw [Finmap.lookup_insert_of_ne _ he.2.1, hd]
  · rw [hlink]
    exact htail.insert hal' c'

end Linked
