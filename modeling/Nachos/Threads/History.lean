import Nachos.Lib.History
import Nachos.Threads.DataRefinement

/-!
# Runs with notes

The thread system runs a program with notes as it runs the program.
-/
namespace Nachos

open Concurrent

variable {S Pc D Ev C N : Type} [DecidableEq S] {prog : Program S Pc D Ev C} {n : Notes Pc D C N}

/-- The kernel without the notes. -/
def Kernel.forget (σ : Kernel S Pc (D × List N)) : Kernel S Pc D where
  currentThread := σ.currentThread
  readyList := σ.readyList
  threadToBeDestroyed := σ.threadToBeDestroyed
  status := σ.status
  resume := σ.resume
  pc := σ.pc
  nextTid := σ.nextTid
  sem := σ.sem
  level := σ.level
  yieldOnReturn := σ.yieldOnReturn
  ctrl := σ.ctrl
  data := σ.data.1

omit [DecidableEq S] in
/-- What a program with notes does, without the notes. -/
theorem noting_refines (prog : Program S Pc D Ev C) (n : Notes Pc D C N) (d : D × List N) :
    (prog.noting n).RefinesAt prog Prod.fst d where
  code t pc := by
    simp only [Program.noting]
    cases prog.code t pc with
    | act f =>
      refine .act fun c => ?_
      rw [Option.map_map]
      exact congrFun Option.map_id (f c d.1)
    | fork child k setup => exact .fork child k fun u => rfl
    | P s k => exact .P s k
    | V s k => exact .V s k
    | yield k => exact .yield k
    | tick k => exact .tick k
    | finish => exact .finish
    | stop => exact .stop
  device := rfl
  switchOut _ := rfl
  switchIn _ := rfl
  interrupt := rfl

/-- The notes have no influence on a step. -/
theorem forget_next {σ : Kernel S Pc (D × List N)} (a : Kernel.Act S C) :
    (σ.next (prog.noting n) a).map (Prod.map Kernel.forget id) = σ.forget.next prog a :=
  Kernel.mapNext_next (noting_refines prog n σ.data) a

/-- Every run has its run with notes. -/
theorem exists_noting_run {tr : List (KEvent S Ev)} {σ : Kernel S Pc D} (n : Notes Pc D C N)
    (h : (kernel prog).Run tr σ) : ∃ τ, (kernel (prog.noting n)).Run tr τ ∧ τ.forget = σ := by
  induction h with
  | start hi =>
    subst hi
    exact ⟨Kernel.boot (prog.noting n), .start rfl, rfl⟩
  | next _ hs ih =>
    obtain ⟨τ, hτ, rfl⟩ := ih
    obtain ⟨a, ha⟩ := hs
    rw [← forget_next (n := n), Option.map_eq_some_iff] at ha
    obtain ⟨⟨τ', es'⟩, hn, he⟩ := ha
    simp only [Prod.map_apply, id_eq, Prod.mk.injEq] at he
    obtain ⟨rfl, rfl⟩ := he
    exact ⟨τ', .next hτ ⟨a, hn⟩, rfl⟩

end Nachos
