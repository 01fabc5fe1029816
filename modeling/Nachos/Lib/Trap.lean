import Mathlib.Control.Monad.Basic
import Mathlib.Tactic.Common

/-!
# Commands that may trap

Sequential code on a state `σ` that ends normally, hands over to a trap handler, or brings
its host down.
-/

/-- How a command ends. `ε` are the traps, `κ` the ways to crash. -/
inductive TrapM.Result (σ ε κ α : Type)
  | done (a : α) (s : σ)
  | trapped (e : ε) (s : σ)
  | crashed (why : κ)

abbrev TrapM (σ ε κ α : Type) := σ → TrapM.Result σ ε κ α

namespace TrapM

variable {σ ε κ α β : Type}

/-- What holds at each of the three ends. -/
def Result.Meets (I T : σ → Prop) (K : Prop) : Result σ ε κ α → Prop
  | .done _ s => I s
  | .trapped _ s => T s
  | .crashed _ => K

protected def pure (a : α) : TrapM σ ε κ α := fun s => .done a s

protected def bind (c : TrapM σ ε κ α) (f : α → TrapM σ ε κ β) : TrapM σ ε κ β := fun s =>
  match c s with
  | .done a s' => f a s'
  | .trapped e s' => .trapped e s'
  | .crashed why => .crashed why

instance : Monad (TrapM σ ε κ) where
  pure := TrapM.pure
  bind := TrapM.bind

def gets (f : σ → α) : TrapM σ ε κ α := fun s => .done (f s) s

def update (f : σ → σ) : TrapM σ ε κ Unit := fun s => .done () (f s)

def crash (why : κ) : TrapM σ ε κ α := fun _ => .crashed why

variable {c d : TrapM σ ε κ α} {f : α → TrapM σ ε κ β} {s s' : σ} {a : α}

@[simp] theorem pure_apply (a : α) (s : σ) : (pure a : TrapM σ ε κ α) s = .done a s := rfl

theorem bind_apply : (c >>= f) s = match c s with
    | .done a s' => f a s'
    | .trapped e s' => .trapped e s'
    | .crashed why => .crashed why := rfl

theorem bind_of_done (h : c s = .done a s') : (c >>= f) s = f a s' := by rw [bind_apply, h]

theorem bind_of_trapped {e : ε} (h : c s = .trapped e s') : (c >>= f) s = .trapped e s' := by
  rw [bind_apply, h]

theorem bind_of_crashed {why : κ} (h : c s = .crashed why) : (c >>= f) s = .crashed why := by
  rw [bind_apply, h]

theorem bind_eq_done {b : β} {s'' : σ} : (c >>= f) s = .done b s'' ↔
    ∃ a s', c s = .done a s' ∧ f a s' = .done b s'' := by
  rw [bind_apply]
  cases h : c s <;> simp

/-- From states with `I` the command ends in one, traps in a state with `T`, or crashes, if
`K` permits that. -/
class Bound (I T : σ → Prop) (K : Prop) (c : TrapM σ ε κ α) : Prop where
  meets : ∀ s, I s → (c s).Meets I T K

section

variable {I T : σ → Prop} {K : Prop}

instance (a : α) : Bound I T K (pure a : TrapM σ ε κ α) := ⟨fun _ hs => hs⟩

instance [Bound I T K c] [∀ a, Bound I T K (f a)] : Bound I T K (c >>= f) := ⟨by
  intro s hs
  have hc := Bound.meets (T := T) (K := K) (c := c) s hs
  cases h : c s with
  | done a s' =>
    rw [h] at hc
    rw [bind_of_done h]
    exact Bound.meets s' hc
  | trapped e s' =>
    rw [h] at hc
    rw [bind_of_trapped h]
    exact hc
  | crashed why =>
    rw [h] at hc
    rw [bind_of_crashed h]
    exact hc⟩

instance {p : Prop} [Decidable p] [Bound I T K c] [Bound I T K d] :
    Bound I T K (if p then c else d) := by
  split <;> infer_instance

instance (f : σ → α) : Bound I T K (gets f : TrapM σ ε κ α) := ⟨fun _ hs => hs⟩

theorem bound_update {f : σ → σ} (h : ∀ s, I s → I (f s)) :
    Bound I T K (update f : TrapM σ ε κ Unit) := ⟨h⟩

end

end TrapM
