import Nachos.Userprog.Join

/-!
# Joining a child once

The destructor of a semaphore assumes that no one is still waiting. For the semaphores of
a `PCB` that is so exactly as long as no process joins the same child twice: the second
`Join` is not refused, and waits for a child that is gone.
-/
namespace Nachos

open Concurrent

variable {initial : ℕ → Int} {a b : State SemId Pc Data} {tr es : List (Event SemId Ev)}
  {t v : Tid} {o : ObjectId} {d : Data} {pc k : Pc}

/-- In a `Join` on `o` that has not been let in. -/
def Pc.waiting (d : Data) (o : ObjectId) : Pc → Bool
  | .join c (.incP _) | .join c (.inc _) | .join c (.incV _) | .join c .lookup
  | .join c (.wait _) => d.pcb c = some o
  | _ => false

section Append

variable (t : Tid) (o : ObjectId) (tr es : List (Event SemId Ev))

end Append

/-- After the destruction of `o` the script is over. -/
theorem destroyed_stage {u : Tid} (h : Shaken tr a o) (hd : .act u (.destroyed o) ∈ tr) :
    ∃ r n, 7 ≤ n ∧ Stage a o r n ∧ handshake o tr = script o r := by
  obtain ⟨r, n, hs, htr⟩ := h
  obtain ⟨tr₁, tr₂, rfl⟩ := List.append_of_mem hd
  obtain ⟨i, hin, _, hx⟩ := handshake_before htr (by simp [concerns])
  obtain rfl := script_destroyed hx
  refine ⟨r, n, hin, hs, ?_⟩
  rw [htr, List.take_of_length_le]
  exact hin

section Kernel

variable {σ : Kernel SemId Pc Data} {tr : List (KEvent SemId Ev)}

end Kernel

end Nachos
