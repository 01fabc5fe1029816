import Mathlib.Order.Defs.Unbundled
import Mathlib.Control.Monad.Basic
import Mathlib.Tactic.Common

/-!
# Commands

Sequential code on a state `σ`. A command that never comes back has no result.
-/

/-- A command that answers with an `α`. -/
abbrev Command (σ α : Type) := StateT σ Option α

namespace Command

variable {σ τ α β : Type} {c d : Command σ α} {f : α → Command σ β} {s s' : σ} {a : α} {b : β}

/-- The command does not return. -/
def stop : Command σ α := fun _ => none

/-- A command on the second of two parts of the state. -/
def onSecond (c : Command τ α) : Command (σ × τ) α := fun s =>
  (c s.2).map fun r => (r.1, s.1, r.2)

theorem bind_of_some (h : c s = some (a, s')) : (c >>= f) s = f a s' := by
  show (c s).bind _ = _
  rw [h]
  rfl

theorem bind_of_none (h : c s = none) : (c >>= f) s = none := by
  show (c s).bind _ = _
  rw [h]
  rfl

theorem bind_eq_some : (c >>= f) s = some (b, s') ↔ ∃ a s₁, c s = some (a, s₁) ∧
    f a s₁ = some (b, s') := by
  show (c s).bind _ = _ ↔ _
  rw [Option.bind_eq_some_iff]
  constructor
  · rintro ⟨⟨a, s₁⟩, hc, hf⟩
    exact ⟨a, s₁, hc, hf⟩
  · rintro ⟨a, s₁, hc, hf⟩
    exact ⟨(a, s₁), hc, hf⟩

theorem onSecond_of_some {c : Command τ α} {r : σ} {t t' : τ} (h : c t = some (a, t')) :
    onSecond c (r, t) = some (a, r, t') := by
  show (c t).map _ = _
  rw [h]
  rfl

theorem onSecond_of_none {c : Command τ α} {r : σ} {t : τ} (h : c t = none) :
    onSecond c (r, t) = none := by
  show (c t).map _ = _
  rw [h]
  rfl

@[simp] theorem pure_apply (a : α) (s : σ) : (pure a : Command σ α) s = some (a, s) := rfl

/-- Whenever the command returns, the states before and after are related. -/
class Keeps (R : σ → σ → Prop) (c : Command σ α) : Prop where
  keeps : ∀ s a s', c s = some (a, s') → R s s'

section

variable {R : σ → σ → Prop}

instance [Std.Refl R] (a : α) : Keeps R (pure a) := ⟨by
  rintro s _ _ ⟨rfl, rfl⟩
  exact Std.Refl.refl s⟩

instance [IsTrans σ R] [Keeps R c] [∀ a, Keeps R (f a)] : Keeps R (c >>= f) := ⟨by
  intro s b s' h
  obtain ⟨a, s₁, hc, hf⟩ := bind_eq_some.mp h
  exact IsTrans.trans s s₁ s' (Keeps.keeps s a s₁ hc) (Keeps.keeps s₁ b s' hf)⟩

instance {p : Prop} [Decidable p] [Keeps R c] [Keeps R d] : Keeps R (if p then c else d) := by
  split <;> infer_instance

instance : Keeps R (stop : Command σ α) := ⟨by
  intro s a s' h
  cases h⟩

end

/-- Only the second part changes. -/
instance (c : Command τ α) : Keeps (fun s s' : σ × τ => s'.1 = s.1) (onSecond c) := ⟨by
  intro s a s' h
  obtain ⟨r, _, hr⟩ := Option.map_eq_some_iff.mp h
  cases hr
  rfl⟩

/-! ## Calls one after the other -/

section

variable {ι : Type} {step : ι → Command σ α} {spec : ι → τ → α × τ} {R : σ → τ → Prop} {is : List ι}
  {t : τ}

/-- What calls are to answer, and the state in which they are to end. -/
def replies (spec : ι → τ → α × τ) : List ι → τ → List α × τ
  | [], t => ([], t)
  | i :: is, t =>
    let r := replies spec is (spec i t).2
    ((spec i t).1 :: r.1, r.2)

/-- The refinement rule: what a call keeps, a sequence of calls keeps. -/
theorem mapM_refine (hstep : ∀ i ∈ is, ∀ s t, R s t →
      ∃ s', step i s = some ((spec i t).1, s') ∧ R s' (spec i t).2) (h : R s t) :
    ∃ s', is.mapM step s = some ((replies spec is t).1, s') ∧ R s' (replies spec is t).2 := by
  induction is generalizing s t with
  | nil => exact ⟨s, rfl, h⟩
  | cons i is ih =>
    obtain ⟨s₁, hfirst, h₁⟩ := hstep i List.mem_cons_self s t h
    obtain ⟨s', hrest, h'⟩ := ih (fun j hj => hstep j (List.mem_cons_of_mem i hj)) h₁
    refine ⟨s', ?_, h'⟩
    rw [List.mapM_cons, bind_of_some hfirst, bind_of_some hrest]
    rfl

end

/-! ## Calls of which the outcome is not determined -/

section

variable {ι κ : Type} {step : ι → Command σ α} {spec : κ → Command τ α} {M : ι → κ → Prop}
  {R : σ → τ → Prop} {t : τ}

/-- The calls `is` have answered as some calls `ks` of the specification, which they match. The
states before and after are related, and no call that matches the next one has a meaning. -/
structure Simulated (step : ι → Command σ α) (spec : κ → Command τ α) (M : ι → κ → Prop)
    (R : σ → τ → Prop) (is : List ι) (s : σ) (t : τ) (done rest : List ι) (ks : List κ)
    (answers : List α) (s' : σ) (t' : τ) : Prop where
  calls : is = done ++ rest
  matched : List.Forall₂ M done ks
  run : done.mapM step s = some (answers, s')
  meaning : ks.mapM spec t = some (answers, t')
  related : R s' t'
  misuse : ∀ i ∈ rest.head?, ∀ k, M i k → spec k t' = none

/-- The simulation rule: calls that have a meaning are answered like calls that match them. -/
theorem mapM_simulate (hstep : ∀ i s t, R s t → (∀ k, M i k → spec k t = none) ∨
      ∃ k a s' t', M i k ∧ step i s = some (a, s') ∧ spec k t = some (a, t') ∧ R s' t')
    (is : List ι) {s : σ} (h : R s t) :
    ∃ done rest ks answers s' t', Simulated step spec M R is s t done rest ks answers s' t' := by
  induction is generalizing s t with
  | nil => exact ⟨[], [], [], [], s, t, rfl, .nil, rfl, rfl, h, by simp⟩
  | cons i is ih =>
    rcases hstep i s t h with hnone | ⟨k, a, s₁, t₁, hm, hs, ht, h₁⟩
    · exact ⟨[], i :: is, [], [], s, t, rfl, .nil, rfl, rfl, h, by simpa using hnone⟩
    · obtain ⟨done, rest, ks, answers, s', t', hrest⟩ := ih h₁
      refine ⟨i :: done, rest, k :: ks, a :: answers, s', t', ?_, .cons hm hrest.matched, ?_, ?_,
        hrest.related, hrest.misuse⟩
      · rw [hrest.calls, List.cons_append]
      · rw [List.mapM_cons, bind_of_some hs, bind_of_some hrest.run]
        rfl
      · rw [List.mapM_cons, bind_of_some ht, bind_of_some hrest.meaning]
        rfl

end

end Command
