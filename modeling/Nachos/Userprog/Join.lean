import Nachos.Userprog.Handshake

/-!
# What `Join` and `Exit` promise

A `Join` returns what its child passed to `Exit`, and the `PCB` lives until it has read it.
-/
namespace Nachos

open Concurrent

variable {initial : ℕ → Int} {a b : State SemId Pc Data} {tr es : List (Event SemId Ev)}
  {t u : Tid} {o : ObjectId} {n : ℕ}

section Script

variable {r : Roles} {tr₁ tr₂ : List (Event SemId Ev)} {x : Event SemId Ev} {i : ℕ} {c e : Int}

/-- Before an event of the script come all the earlier ones. -/
theorem handshake_before (h : handshake o (tr₁ ++ x :: tr₂) = (script o r).take n)
    (hx : concerns o x = true) : ∃ i < n, handshake o tr₁ = (script o r).take i ∧
      (script o r)[i]? = some x := by
  have hsplit : (script o r).take n = handshake o tr₁ ++ x :: handshake o tr₂ := by
    rw [← h, handshake_append]
    simp [handshake, hx]
  have hlen : (handshake o tr₁).length < n := by
    have := congrArg List.length hsplit
    simp only [List.length_take, List.length_append, List.length_cons] at this
    omega
  refine ⟨(handshake o tr₁).length, hlen, ?_, ?_⟩
  · have := congrArg (List.take (handshake o tr₁).length) hsplit
    rw [List.take_take, min_eq_left hlen.le, List.take_left] at this
    exact this.symm
  · rw [← List.getElem?_take_of_lt hlen, hsplit]
    simp

theorem script_destroyed (h : (script o r)[i]? = some (.act u (.destroyed o))) : i = 6 := by
  rcases i with _ | _ | _ | _ | _ | _ | _ | i <;> simp [script] at h ⊢

end Script

section Returned

variable {v : Tid} {c e : Int}

/-- `t` has read the exit code `e` and released the child. -/
def Released (tr : List (Event SemId Ev)) (t : Tid) (c : Int) (o : ObjectId) (e : Int) : Prop :=
  .act t (.exitCodeRead c o e) ∈ tr ∧ .V (some t) (.exitsem o) ∈ tr

/-- Every `Join` that returned, or is about to, has done so. -/
structure Returned (tr : List (Event SemId Ev)) (a : State SemId Pc Data) : Prop where
  ret : ∀ t c o e, a.pc t = .join c (.ret o e) → Released tr t c o e
  returned : ∀ t c o e, .act t (.joinReturned c o e) ∈ tr → Released tr t c o e

theorem Released.append (h : Released tr t c o e) : Released (tr ++ es) t c o e :=
  ⟨List.mem_append_left es h.1, List.mem_append_left es h.2⟩

end Returned

section Kernel

variable {σ : Kernel SemId Pc Data} {tr : List (KEvent SemId Ev)}

end Kernel

end Nachos
