import Mathlib.Order.Lattice.Nat
import ToggleTree.ForkJoin.Program

/-!
# Operations without forks

The operations of a shared object make some atomic steps and return. How many they still make at
most, whatever they read, goes down with every step.
-/

namespace ForkJoin

open Prog

variable {σ ι α : Type}

namespace Prog

/-- The program makes at most `n` atomic steps, and does nothing else. -/
def Within : {α : Type} → ℕ → Prog σ ι α → Prop
  | _, _, ret _ => True
  | _, n + 1, atom _ next => ∀ b, Within n (next b)
  | _, _, _ => False

/-- How many atomic steps the program makes at most. -/
noncomputable def steps (p : Prog σ ι α) : ℕ := sInf {n | p.Within n}

variable {p p' : Prog σ ι α} {n : ℕ}

/-- A program that has returned is within every number of steps. -/
@[simp] theorem within_ret (a : α) : Within n (ret a : Prog σ ι α) := by cases n <;> trivial

/-- An atomic step is one of the steps. -/
@[simp] theorem within_atom {β : Type} {act : σ → β × σ} {next : β → Prog σ ι α} :
    Within (n + 1) (atom act next) ↔ ∀ b, Within n (next b) := Iff.rfl

/-- The number of steps is the least bound. -/
theorem Within.steps_le (h : p.Within n) : p.steps ≤ n := Nat.sInf_le h

/-- The number of steps is a bound if there is one. -/
theorem Within.within_steps (h : p.Within n) : p.Within p.steps :=
  Nat.sInf_mem (s := {n | p.Within n}) ⟨n, h⟩

variable {env : ι → Prog σ ι Unit} {s s' : σ}

/-- Every step uses one of the steps up. -/
theorem Within.step (h : p.Within n) (hstep : Step env p s p' s') : ∃ m, n = m + 1 ∧ p'.Within m := by
  cases p with
  | ret a => exact hstep.elim
  | atom act next =>
    obtain ⟨rfl, _⟩ := hstep
    cases n with
    | zero => exact h.elim
    | succ m => exact ⟨m, rfl, h _⟩
  | _ => cases n <;> exact h.elim

/-- Every step leaves less to do. -/
theorem Within.steps_lt (h : p.Within n) (hstep : Step env p s p' s') : p'.steps < p.steps := by
  obtain ⟨m, hm, hwithin⟩ := h.within_steps.step hstep
  rw [hm]
  exact Nat.lt_succ_of_le hwithin.steps_le

end Prog

end ForkJoin
