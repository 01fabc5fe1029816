import Mathlib.Logic.Function.Basic
import Nachos.Lib.Trap

/-!
# Processes in one memory

Processes take turns on one processor and share one memory. Each has a private part of the state
of the processor, which says what locations the process owns. A command is local when it neither
looks at nor changes anything else. Then a process that takes turns with others, who own other
locations, goes on as if it were alone.
-/

/-- How the state of the processor is made up. -/
structure Layout (σ π L V : Type) where
  priv : σ → π
  mem : σ → L → V
  join : π → (L → V) → σ
  owns : π → L → Prop
  priv_join : ∀ p m, priv (join p m) = p
  mem_join : ∀ p m, mem (join p m) = m

namespace Layout

open TrapM (Result gets update crash)

variable {σ π L V ε κ α β : Type} {Λ : Layout σ π L V}

/-- A process does not see a difference. -/
structure Alike (Λ : Layout σ π L V) (s t : σ) : Prop where
  priv : Λ.priv s = Λ.priv t
  mem : ∀ l, Λ.owns (Λ.priv s) l → Λ.mem s l = Λ.mem t l

/-- What the process has is the same, and what it has not is not changed. -/
structure Kept (Λ : Layout σ π L V) (s s' : σ) : Prop where
  owns : ∀ l, Λ.owns (Λ.priv s') l ↔ Λ.owns (Λ.priv s) l
  mem : ∀ l, ¬Λ.owns (Λ.priv s) l → Λ.mem s' l = Λ.mem s l

theorem Alike.refl (s : σ) : Λ.Alike s s := ⟨rfl, fun _ _ => rfl⟩

theorem Alike.symm {s t : σ} (h : Λ.Alike s t) : Λ.Alike t s :=
  ⟨h.priv.symm, fun l hl => (h.mem l (h.priv ▸ hl)).symm⟩

theorem Alike.trans {s t u : σ} (h : Λ.Alike s t) (h' : Λ.Alike t u) : Λ.Alike s u :=
  ⟨h.priv.trans h'.priv, fun l hl => (h.mem l hl).trans (h'.mem l (h.priv ▸ hl))⟩

theorem Kept.refl (s : σ) : Λ.Kept s s := ⟨fun _ => Iff.rfl, fun _ _ => rfl⟩

theorem Kept.trans {s t u : σ} (h : Λ.Kept s t) (h' : Λ.Kept t u) : Λ.Kept s u :=
  ⟨fun l => (h'.owns l).trans (h.owns l),
    fun l hl => (h'.mem l (mt (h.owns l).mp hl)).trans (h.mem l hl)⟩

/-- Two runs end in the same way, in states with `R`. -/
inductive EndsAlike (R : σ → σ → Prop) : Result σ ε κ α → Result σ ε κ α → Prop
  | done (a : α) {s t : σ} (h : R s t) : EndsAlike R (.done a s) (.done a t)
  | trapped (e : ε) {s t : σ} (h : R s t) : EndsAlike R (.trapped e s) (.trapped e t)
  | crashed (why : κ) : EndsAlike R (.crashed why) (.crashed why)

/-- The command does not go beyond what its process has. -/
class Local (Λ : Layout σ π L V) (c : TrapM σ ε κ α) : Prop where
  alike : ∀ s t, Λ.Alike s t → EndsAlike Λ.Alike (c s) (c t)
  kept : ∀ s, (c s).Meets (Λ.Kept s) (Λ.Kept s) True

section Commands

variable {c d : TrapM σ ε κ α} {f : α → TrapM σ ε κ β}

/-- What comes next may use what is known of the result. -/
theorem local_bind {P : α → σ → Prop} [hc : Local Λ c] (hP : ∀ s a s', c s = .done a s' → P a s')
    (halike : ∀ a s t, P a s → P a t → Λ.Alike s t → EndsAlike Λ.Alike (f a s) (f a t))
    (hkept : ∀ a s, P a s → (f a s).Meets (Λ.Kept s) (Λ.Kept s) True) :
    Local Λ (c >>= f) := by
  refine ⟨fun s t h => ?_, fun s => ?_⟩
  · have hends := hc.alike s t h
    rw [TrapM.bind_apply, TrapM.bind_apply]
    generalize hs : c s = x at hends
    generalize ht : c t = y at hends
    cases hends with
    | done a h' => exact halike a _ _ (hP s a _ hs) (hP t a _ ht) h'
    | trapped e h' => exact .trapped e h'
    | crashed why => exact .crashed why
  · have hmeets := hc.kept s
    rw [TrapM.bind_apply]
    cases hs : c s with
    | done a s' =>
      rw [hs] at hmeets
      have hnext := hkept a s' (hP s a s' hs)
      show (f a s').Meets _ _ _
      cases hf : f a s' with
      | done b u =>
        rw [hf] at hnext
        exact hmeets.trans hnext
      | trapped e u =>
        rw [hf] at hnext
        exact hmeets.trans hnext
      | crashed why => trivial
    | trapped e s' =>
      rw [hs] at hmeets
      exact hmeets
    | crashed why => trivial

instance [Local Λ c] [∀ a, Local Λ (f a)] : Local Λ (c >>= f) :=
  local_bind (P := fun _ _ => True) (fun _ _ _ _ => trivial)
    (fun _ s t _ _ h => Local.alike s t h) fun _ s _ => Local.kept s

instance (a : α) : Local Λ (pure a : TrapM σ ε κ α) := ⟨fun _ _ h => .done a h, fun s => .refl s⟩

instance (why : κ) : Local Λ (crash why : TrapM σ ε κ α) :=
  ⟨fun _ _ _ => .crashed why, fun _ => trivial⟩

instance {p : Prop} [Decidable p] [Local Λ c] [Local Λ d] : Local Λ (if p then c else d) := by
  split <;> infer_instance

theorem local_gets {g : σ → α} (h : ∀ s t, Λ.Alike s t → g s = g t) :
    Local Λ (gets g : TrapM σ ε κ α) := by
  refine ⟨fun s t hst => ?_, fun s => .refl s⟩
  show EndsAlike _ (.done (g s) s) (.done (g t) t)
  rw [h s t hst]
  exact .done _ hst

theorem local_update {g : σ → σ} (h : ∀ s t, Λ.Alike s t → Λ.Alike (g s) (g t))
    (hkept : ∀ s, Λ.Kept s (g s)) : Local Λ (update g : TrapM σ ε κ Unit) :=
  ⟨fun s t hst => .done () (h s t hst), hkept⟩

end Commands

/-- A command runs, and may end in a trap. -/
def once (c : TrapM σ ε κ Unit) (s : σ) : Option (σ × Option ε) :=
  match c s with
  | .done _ s => some (s, none)
  | .trapped e s => some (s, some e)
  | .crashed _ => none

theorem once_alike {c : TrapM σ ε κ Unit} [hc : Local Λ c] {s t : σ} (h : Λ.Alike s t) :
    (once c s = none ∧ once c t = none) ∨ ∃ e s' t', once c s = some (s', e) ∧
      once c t = some (t', e) ∧ Λ.Alike s' t' ∧ Λ.Kept s s' := by
  have hends := hc.alike s t h
  have hkept := hc.kept s
  unfold once
  generalize c s = x at hends hkept
  generalize c t = y at hends
  cases hends with
  | done a h' => exact .inr ⟨none, _, _, rfl, rfl, h', hkept⟩
  | trapped e h' => exact .inr ⟨some e, _, _, rfl, rfl, h', hkept⟩
  | crashed why => exact .inl ⟨rfl, rfl⟩

/-- A process that has the processor for itself, and how its commands end. -/
def alone : List (TrapM σ ε κ Unit) → σ → Option (σ × List (Option ε))
  | [], s => some (s, [])
  | c :: cs, s =>
    match once c s with
    | none => none
    | some (s, e) => (alone cs s).map fun r => (r.1, e :: r.2)

/-! ## Taking turns -/

/-- The memory, and the private parts of all processes. -/
structure Shared (ι π L V : Type) where
  memory : L → V
  process : ι → π

namespace Shared

variable {ι : Type} {g g' : Shared ι π L V} {i j : ι} {s m : σ}

/-- The processor as the process `i` has it. -/
def view (Λ : Layout σ π L V) (g : Shared ι π L V) (i : ι) : σ := Λ.join (g.process i) g.memory

/-- No location has two owners. -/
def Apart (Λ : Layout σ π L V) (g : Shared ι π L V) : Prop :=
  ∀ i j, i ≠ j → ∀ l, Λ.owns (g.process i) l → ¬Λ.owns (g.process j) l

theorem priv_view (g : Shared ι π L V) (i : ι) : Λ.priv (g.view Λ i) = g.process i :=
  Λ.priv_join _ _

theorem mem_view (g : Shared ι π L V) (i : ι) : Λ.mem (g.view Λ i) = g.memory := Λ.mem_join _ _

variable [DecidableEq ι]

/-- The process `i` leaves the processor in the state `s`. -/
def put (Λ : Layout σ π L V) (g : Shared ι π L V) (i : ι) (s : σ) : Shared ι π L V :=
  ⟨Λ.mem s, Function.update g.process i (Λ.priv s)⟩

theorem process_put_self (g : Shared ι π L V) (i : ι) (s : σ) :
    (g.put Λ i s).process i = Λ.priv s :=
  Function.update_self _ _ _

theorem process_put_of_ne (g : Shared ι π L V) (hj : j ≠ i) (s : σ) :
    (g.put Λ i s).process j = g.process j :=
  Function.update_of_ne hj _ _

/-- The process `i` has its turn. -/
def turn (Λ : Layout σ π L V) (g : Shared ι π L V) (i : ι) (c : TrapM σ ε κ Unit) :
    Option (Shared ι π L V × Option ε) :=
  (once c (g.view Λ i)).map fun r => (g.put Λ i r.1, r.2)

/-- Turns one after the other, and how each has ended. -/
def takeTurns (Λ : Layout σ π L V) : List (ι × TrapM σ ε κ Unit) → Shared ι π L V →
    Option (Shared ι π L V × List (ι × Option ε))
  | [], g => some (g, [])
  | x :: xs, g =>
    match turn Λ g x.1 x.2 with
    | none => none
    | some (g, e) => (takeTurns Λ xs g).map fun r => (r.1, (x.1, e) :: r.2)

/-- What belongs to `i`, of what all do or get. -/
def only (i : ι) : List (ι × α) → List α
  | [] => []
  | x :: xs => if x.1 = i then x.2 :: only i xs else only i xs

theorem view_put_self (g : Shared ι π L V) (i : ι) (s : σ) :
    Λ.Alike ((g.put Λ i s).view Λ i) s := by
  refine ⟨?_, fun l _ => ?_⟩
  · rw [priv_view, process_put_self]
  · rw [mem_view]
    rfl

/-- The others do not notice a turn. -/
theorem view_put_of_ne (h : g.Apart Λ) (hk : Λ.Kept (g.view Λ i) s) (hj : j ≠ i) :
    Λ.Alike ((g.put Λ i s).view Λ j) (g.view Λ j) := by
  refine ⟨by rw [priv_view, priv_view, process_put_of_ne g hj], fun l hl => ?_⟩
  rw [priv_view, process_put_of_ne g hj] at hl
  rw [mem_view]
  exact hk.mem l (by rw [priv_view]; exact h j i hj l hl) |>.trans (by rw [mem_view, mem_view])

theorem Apart.put (h : g.Apart Λ) (hk : Λ.Kept (g.view Λ i) s) : (g.put Λ i s).Apart Λ := by
  have howns : ∀ k l, Λ.owns ((g.put Λ i s).process k) l ↔ Λ.owns (g.process k) l := by
    intro k l
    by_cases hki : k = i
    · rw [hki, process_put_self, hk.owns, priv_view]
    · rw [process_put_of_ne g hki]
  intro a b hab l ha hb
  rw [howns] at ha hb
  exact h a b hab l ha hb

/-- A process that takes turns with others goes on as if it were alone, and the processor goes
down exactly if it does with one of them alone. -/
theorem takeTurns_alone {xs : List (ι × TrapM σ ε κ Unit)} (hxs : ∀ x ∈ xs, Local Λ x.2)
    (h : g.Apart Λ) :
    (takeTurns Λ xs g = none ∧ ∃ i, ∀ m, Λ.Alike (g.view Λ i) m → alone (only i xs) m = none) ∨
    ∃ g' es, takeTurns Λ xs g = some (g', es) ∧ g'.Apart Λ ∧ ∀ i m, Λ.Alike (g.view Λ i) m →
      ∃ m', alone (only i xs) m = some (m', only i es) ∧ Λ.Alike (g'.view Λ i) m' := by
  induction xs generalizing g with
  | nil => exact .inr ⟨g, [], rfl, h, fun i m hm => ⟨m, rfl, hm⟩⟩
  | cons x xs ih =>
    obtain ⟨i, c⟩ := x
    have hlocal : Local Λ c := hxs (i, c) List.mem_cons_self
    have hrest : ∀ x ∈ xs, Local Λ x.2 := fun x hx => hxs x (List.mem_cons_of_mem _ hx)
    rcases once_alike (c := c) (Alike.refl (Λ := Λ) (g.view Λ i)) with ⟨hnone, -⟩ | ⟨e, s, _, hs, -, -, hk⟩
    · refine .inl ⟨?_, i, fun m hm => ?_⟩
      · simp [takeTurns, turn, hnone]
      · rcases once_alike (c := c) hm with ⟨-, hm⟩ | ⟨_, _, _, hsome, -⟩
        · simp [only, alone, hm]
        · rw [hnone] at hsome
          cases hsome
    · -- the others have the same before them as before this turn
      have hturn : turn Λ g i c = some (g.put Λ i s, e) := by rw [turn, hs]; rfl
      have hself : ∀ m, Λ.Alike (g.view Λ i) m → ∃ m', once c m = some (m', e) ∧
          Λ.Alike ((g.put Λ i s).view Λ i) m' := by
        intro m hm
        rcases once_alike (c := c) hm with ⟨hnone, -⟩ | ⟨e', s', m', hs', hm', halike, -⟩
        · rw [hs] at hnone
          cases hnone
        · rw [hs] at hs'
          cases hs'
          exact ⟨m', hm', (view_put_self g i s).trans halike⟩
      rcases ih hrest (h.put hk) with ⟨hnone, j, hj⟩ | ⟨g', es, hsome, hapart, hall⟩
      · refine .inl ⟨by simp [takeTurns, hturn, hnone], j, fun m hm => ?_⟩
        by_cases hji : i = j
        · subst hji
          obtain ⟨m', honce, hm'⟩ := hself m hm
          simp [only, alone, honce, hj m' hm']
        · rw [only, if_neg hji]
          exact hj m ((view_put_of_ne h hk (Ne.symm hji)).trans hm)
      · refine .inr ⟨g', (i, e) :: es, by simp [takeTurns, hturn, hsome], hapart, fun j m hm => ?_⟩
        by_cases hji : i = j
        · subst hji
          obtain ⟨m', honce, hm'⟩ := hself m hm
          obtain ⟨m'', halone, hm''⟩ := hall i m' hm'
          exact ⟨m'', by simp [only, alone, honce, halone], hm''⟩
        · rw [only, if_neg hji, only, if_neg hji]
          exact hall j m ((view_put_of_ne h hk (Ne.symm hji)).trans hm)

end Shared

end Layout
