import Nachos.Lib.Trap

/-!
# Two runs of a command

A command that is run from two states in a relation. Both runs end in the same way: normally, with
one result, in states that are again in the relation, or with one trap in one state.
-/
namespace TrapM

variable {σ ε κ α β : Type}

inductive Result.Same (R : σ → σ → Prop) : Result σ ε κ α → Result σ ε κ α → Prop
  | done (a : α) {s t : σ} (h : R s t) : Same R (.done a s) (.done a t)
  | trapped (e : ε) (s : σ) : Same R (.trapped e s) (.trapped e s)
  | crashed (why : κ) : Same R (.crashed why) (.crashed why)

theorem Result.Same.imp {R R' : σ → σ → Prop} {x y : Result σ ε κ α} (h : Result.Same R x y)
    (hR : ∀ s t, R s t → R' s t) : Result.Same R' x y := by
  cases h with
  | done a h => exact .done a (hR _ _ h)
  | trapped e s => exact .trapped e s
  | crashed why => exact .crashed why

/-- From related states the command does the same. -/
class Respects (R : σ → σ → Prop) (c : TrapM σ ε κ α) : Prop where
  same : ∀ s t, R s t → Result.Same R (c s) (c t)

variable {R : σ → σ → Prop} {c d : TrapM σ ε κ α} {f : α → TrapM σ ε κ β} {s t : σ}

/-- After runs that end in the same way, what comes next may use what they have in common. -/
theorem same_bind {R' : σ → σ → Prop} (h : Result.Same R (c s) (c t))
    (hf : ∀ a s' t', c s = .done a s' → R s' t' → Result.Same R' (f a s') (f a t')) :
    Result.Same R' ((c >>= f) s) ((c >>= f) t) := by
  rw [bind_apply, bind_apply]
  generalize hs : c s = x at h
  generalize c t = y at h
  cases h with
  | done a hR => exact hf a _ _ hs hR
  | trapped e s' => exact .trapped e s'
  | crashed why => exact .crashed why

instance (a : α) : Respects R (pure a : TrapM σ ε κ α) := ⟨fun _ _ h => .done a h⟩

instance (why : κ) : Respects R (crash why : TrapM σ ε κ α) := ⟨fun _ _ _ => .crashed why⟩

instance [Respects R c] [∀ a, Respects R (f a)] : Respects R (c >>= f) := ⟨by
  intro s t h
  apply same_bind (Respects.same s t h)
  intro a s' t' _ h'
  exact Respects.same s' t' h'⟩

instance {p : Prop} [Decidable p] [Respects R c] [Respects R d] :
    Respects R (if p then c else d) := by
  split <;> infer_instance

theorem respects_gets {f : σ → α} (h : ∀ s t, R s t → f t = f s) :
    Respects R (gets f : TrapM σ ε κ α) := ⟨by
  intro s t hst
  show Result.Same R (.done (f s) s) (.done (f t) t)
  rw [h s t hst]
  exact .done (f s) hst⟩

theorem respects_update {f : σ → σ} (h : ∀ s t, R s t → R (f s) (f t)) :
    Respects R (update f : TrapM σ ε κ Unit) := ⟨fun s t hst => .done () (h s t hst)⟩

end TrapM
