import Mathlib.Data.List.Basic
import Mathlib.Tactic.Common

/-!
# Sections of a trace

A trace of marks: someone enters, or something happens. Whatever happens belongs to the one who
entered last, and so the trace falls into sections.
-/
namespace Section

/-- `enter k`: a section of `k` begins. -/
inductive Mark (κ α : Type)
  | enter (k : κ)
  | item (x : α)

variable {κ α : Type}

/-- One more item in the last section. -/
def add (x : α) : List (κ × List α) → List (κ × List α)
  | [] => []
  | [c] => [(c.1, c.2 ++ [x])]
  | c :: cs => c :: add x cs

def mark (cs : List (κ × List α)) : Mark κ α → List (κ × List α)
  | .enter k => cs ++ [(k, [])]
  | .item x => add x cs

/-- The sections of a trace, in order. -/
def sections (ms : List (Mark κ α)) : List (κ × List α) := ms.foldl mark []

/-- The sections of a trace of events, some of which are marks. -/
def sectionsOf {ε : Type} (f : ε → Option (Mark κ α)) (tr : List ε) : List (κ × List α) :=
  sections (tr.filterMap f)

/-- Whose section the last one is. -/
def owner (cs : List (κ × List α)) : Option κ := cs.getLast?.map Prod.fst

/-- The sections of `k`. -/
def ofKey [DecidableEq κ] (k : κ) (cs : List (κ × List α)) : List (List α) :=
  cs.filterMap fun c => if c.1 = k then some c.2 else none

section
variable {ε : Type} {f : ε → Option (Mark κ α)} {tr es : List ε}

theorem sectionsOf_none (h : es.filterMap f = []) : sectionsOf f (tr ++ es) = sectionsOf f tr := by
  simp [sectionsOf, h]

theorem sectionsOf_enter {k : κ} (h : es.filterMap f = [.enter k]) :
    sectionsOf f (tr ++ es) = sectionsOf f tr ++ [(k, [])] := by
  simp [sectionsOf, sections, mark, h]

theorem sectionsOf_item {x : α} (h : es.filterMap f = [.item x]) :
    sectionsOf f (tr ++ es) = add x (sectionsOf f tr) := by
  simp [sectionsOf, sections, mark, h]
end

@[simp] theorem add_append_singleton (x : α) (cs : List (κ × List α)) (c : κ × List α) :
    add x (cs ++ [c]) = cs ++ [(c.1, c.2 ++ [x])] := by
  induction cs with
  | nil => rfl
  | cons d cs ih =>
    cases cs with
    | nil => rfl
    | cons e cs => simpa [add] using ih

@[simp] theorem owner_append_singleton (cs : List (κ × List α)) (c : κ × List α) :
    owner (cs ++ [c]) = some c.1 := by
  simp [owner]

/-- A trace with an owner ends in a section of that owner. -/
theorem owner_eq_some {cs : List (κ × List α)} {k : κ} (h : owner cs = some k) :
    ∃ ds xs, cs = ds ++ [(k, xs)] := by
  rcases List.eq_nil_or_concat cs with rfl | ⟨ds, ⟨k', xs⟩, rfl⟩
  · cases h
  · rw [List.concat_eq_append, owner_append_singleton] at h
    cases h
    exact ⟨ds, xs, List.concat_eq_append⟩

@[simp] theorem owner_add (x : α) (cs : List (κ × List α)) : owner (add x cs) = owner cs := by
  rcases List.eq_nil_or_concat cs with rfl | ⟨ds, c, rfl⟩
  · rfl
  · simp [List.concat_eq_append]

section
variable [DecidableEq κ] {k l : κ} {cs : List (κ × List α)} {x : α}

@[simp] theorem ofKey_append (cs ds : List (κ × List α)) :
    ofKey k (cs ++ ds) = ofKey k cs ++ ofKey k ds := List.filterMap_append

@[simp] theorem ofKey_self (xs : List α) : ofKey k [(k, xs)] = [xs] := by simp [ofKey]

theorem ofKey_of_ne (h : l ≠ k) (xs : List α) : ofKey k [(l, xs)] = [] := by simp [ofKey, h]

theorem mem_ofKey {xs : List α} : xs ∈ ofKey k cs ↔ (k, xs) ∈ cs := by
  simp only [ofKey, List.mem_filterMap]
  constructor
  · rintro ⟨⟨l, ys⟩, hm, he⟩
    split at he
    · rename_i hl
      cases he
      exact hl ▸ hm
    · cases he
  · intro hm
    exact ⟨_, hm, by simp⟩

/-- An item goes into the last section of its owner. -/
theorem ofKey_add_self {front : List (List α)} {xs : List α} (ho : owner cs = some k)
    (h : ofKey k cs = front ++ [xs]) : ofKey k (add x cs) = front ++ [xs ++ [x]] := by
  obtain ⟨ds, ys, rfl⟩ := owner_eq_some ho
  simp only [ofKey_append, ofKey_self, add_append_singleton] at h ⊢
  obtain ⟨hfront, hys⟩ := List.append_inj' h rfl
  cases hys
  rw [hfront]

theorem ofKey_add_of_ne (ho : owner cs = some l) (h : l ≠ k) : ofKey k (add x cs) = ofKey k cs := by
  obtain ⟨ds, ys, rfl⟩ := owner_eq_some ho
  simp [ofKey_of_ne h]

/-- Everyone has the sections expected of them, and whoever is inside has the last one. -/
structure Sectioned (cs : List (κ × List α)) (inside : κ → Bool) (parts : κ → List (List α)) :
    Prop where
  parts : ∀ k, ofKey k cs = parts k
  owner : ∀ k, inside k = true → owner cs = some k

section
variable {inside inside' : κ → Bool} {parts parts' : κ → List (List α)}

/-- Nothing happens in any section. -/
theorem Sectioned.keep (h : Sectioned cs inside parts) (hp : ∀ k, parts' k = parts k)
    (hi : ∀ k, inside' k = true → inside k = true) : Sectioned cs inside' parts' where
  parts k := by rw [h.parts, hp]
  owner k hk := h.owner k (hi k hk)

/-- A section begins. -/
theorem Sectioned.enter (h : Sectioned cs inside parts) (hk : parts' k = parts k ++ [[]])
    (hp : ∀ l, l ≠ k → parts' l = parts l) (hi : ∀ l, inside' l = true → l = k) :
    Sectioned (cs ++ [(k, [])]) inside' parts' where
  parts l := by
    by_cases hl : l = k
    · subst hl
      simp [h.parts, hk]
    · simp [h.parts, hp l hl, ofKey_of_ne (Ne.symm hl)]
  owner l hl := by simp [hi l hl]

/-- Something happens in the section of `k`, who is inside. -/
theorem Sectioned.item (h : Sectioned cs inside parts) {front : List (List α)} {xs : List α}
    (hin : inside k = true) (hk : parts k = front ++ [xs]) (hk' : parts' k = front ++ [xs ++ [x]])
    (hp : ∀ l, l ≠ k → parts' l = parts l) (hi : ∀ l, inside' l = true → l = k) :
    Sectioned (add x cs) inside' parts' where
  parts l := by
    by_cases hl : l = k
    · subst hl
      rw [ofKey_add_self (h.owner l hin) (by rw [h.parts, hk]), hk']
    · rw [ofKey_add_of_ne (h.owner k hin) (Ne.symm hl), h.parts, hp l hl]
  owner l hl := by rw [owner_add, h.owner k hin, hi l hl]
end
end

/-- What is collected from all sections, with one more item. -/
theorem flatMap_add {β : Type} {cs : List (κ × List α)} {k : κ} {x : α} (f : List α → List β)
    (hf : ∀ xs ys, f (xs ++ ys) = f xs ++ f ys) (ho : owner cs = some k) :
    ((add x cs).flatMap fun c => f c.2) = (cs.flatMap fun c => f c.2) ++ f [x] := by
  obtain ⟨ds, ys, rfl⟩ := owner_eq_some ho
  simp [hf]

end Section
