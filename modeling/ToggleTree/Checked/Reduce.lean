import ToggleTree.Checked.Loop
import Mathlib.Algebra.BigOperators.Intervals

/-!
# Reductions with checked accesses

A reduction folds short ranges from left to right and splits long ones in halves. Over a monoid it
returns the sum, and with the maximum the largest value, wherever the ranges are split.

Nothing here refers to a particular program.
-/

namespace Checked

variable {β : Type} {start stop : ℕ}

/-- A reduction of the values of `f` from `start` up to `stop`. -/
def reduce (combine : β → β → β) (identity : β) (granularity start stop : ℕ) (f : ℕ → Option β) : Option β :=
  if stop - start ≤ max granularity 1 then
    loop start stop identity fun i aggregate => do
      let x ← f i
      some (combine aggregate x)
  else do
    let mid := start + (stop - start) / 2
    let left ← reduce combine identity granularity start mid f
    let right ← reduce combine identity granularity mid stop f
    some (combine left right)
termination_by stop - start

/-- A loop that combines values from left to right. -/
theorem loop_foldl {f : ℕ → Option β} {g : ℕ → β} (combine : β → β → β) (hle : start ≤ stop) (init : β)
    (hf : ∀ i, start ≤ i → i < stop → f i = some (g i)) :
    loop start stop init (fun i aggregate => do
      let x ← f i
      some (combine aggregate x)) = some (((List.range' start (stop - start)).map g).foldl combine init) := by
  unfold loop
  induction hn : stop - start generalizing start init with
  | zero => rfl
  | succ n ih =>
    rw [List.range'_succ, List.foldlM_cons]
    dsimp only
    rw [hf start le_rfl (by omega)]
    exact ih (by omega) (combine init (g start)) (fun i hi hi' => hf i (by omega) hi') (by omega)

variable [AddCommMonoid β] {f : ℕ → Option β} {g : ℕ → β}

/-- A loop that adds up values. -/
theorem loop_add (hle : start ≤ stop) (init : β) (hf : ∀ i, start ≤ i → i < stop → f i = some (g i)) :
    loop start stop init (fun i aggregate => do
      let x ← f i
      some (aggregate + x)) = some (init + ∑ i ∈ Finset.Ico start stop, g i) := by
  obtain ⟨total, heq, htotal⟩ : Returns (fun total => total = init + ∑ i ∈ Finset.Ico start stop, g i)
      (loop start stop init fun i aggregate => do
        let x ← f i
        some (aggregate + x)) := by
    refine Returns.loop (I := fun t aggregate => aggregate = init + ∑ i ∈ Finset.Ico start t, g i) hle ?_ ?_
    · rw [Finset.Ico_self, Finset.sum_empty, add_zero]
    · rintro i aggregate hi hi' rfl
      refine Returns.bind_eq (hf i hi hi') (Returns.pure ?_)
      rw [Finset.sum_Ico_succ_top hi, add_assoc]
  rw [heq, htotal]

/-- The reduction with addition is the sum. -/
theorem reduce_add (granularity : ℕ) (hle : start ≤ stop) (hf : ∀ i, start ≤ i → i < stop → f i = some (g i)) :
    reduce (· + ·) 0 granularity start stop f = some (∑ i ∈ Finset.Ico start stop, g i) := by
  induction hn : stop - start using Nat.strong_induction_on generalizing start stop with
  | _ length ih =>
    rw [reduce]
    split
    · rw [loop_add hle 0 hf, zero_add]
    · have hleft := ih ((stop - start) / 2) (by omega) (show start ≤ start + (stop - start) / 2 by omega)
        (fun i hi hi' => hf i hi (by omega)) (by omega)
      have hright := ih (stop - (start + (stop - start) / 2)) (by omega)
        (show start + (stop - start) / 2 ≤ stop by omega)
        (fun i hi hi' => hf i (by omega) hi') rfl
      dsimp only
      rw [hleft, hright]
      exact congrArg some (Finset.sum_Ico_consecutive g (by omega) (by omega))

section Sup

variable {β : Type} [LinearOrder β] [OrderBot β] {f : ℕ → Option β} {g : ℕ → β}

/-- A loop that finds the largest value. -/
theorem loop_sup (hle : start ≤ stop) (init : β) (hf : ∀ i, start ≤ i → i < stop → f i = some (g i)) :
    loop start stop init (fun i aggregate => do
      let x ← f i
      some (max aggregate x)) = some (max init ((Finset.Ico start stop).sup g)) := by
  obtain ⟨total, heq, htotal⟩ : Returns (fun total => total = max init ((Finset.Ico start stop).sup g))
      (loop start stop init fun i aggregate => do
        let x ← f i
        some (max aggregate x)) := by
    refine Returns.loop (I := fun t aggregate => aggregate = max init ((Finset.Ico start t).sup g)) hle ?_ ?_
    · rw [Finset.Ico_self, Finset.sup_empty, max_bot_right]
    · rintro i aggregate hi hi' rfl
      refine Returns.bind_eq (hf i hi hi') (Returns.pure ?_)
      rw [← Finset.insert_Ico_right_eq_Ico_add_one hi, Finset.sup_insert, max_assoc, sup_comm (g i)]
  rw [heq, htotal]

/-- The reduction with the maximum is the supremum. -/
theorem reduce_sup (granularity : ℕ) (hle : start ≤ stop) (hf : ∀ i, start ≤ i → i < stop → f i = some (g i)) :
    reduce max ⊥ granularity start stop f = some ((Finset.Ico start stop).sup g) := by
  induction hn : stop - start using Nat.strong_induction_on generalizing start stop with
  | _ length ih =>
    rw [reduce]
    split
    · rw [loop_sup hle ⊥ hf, max_bot_left]
    · have hleft := ih ((stop - start) / 2) (by omega) (show start ≤ start + (stop - start) / 2 by omega)
        (fun i hi hi' => hf i hi (by omega)) (by omega)
      have hright := ih (stop - (start + (stop - start) / 2)) (by omega)
        (show start + (stop - start) / 2 ≤ stop by omega)
        (fun i hi hi' => hf i (by omega) hi') rfl
      dsimp only
      rw [hleft, hright, ← Finset.Ico_union_Ico_eq_Ico (show start ≤ start + (stop - start) / 2 by omega)
        (show start + (stop - start) / 2 ≤ stop by omega), Finset.sup_union]
      rfl

end Sup

end Checked
