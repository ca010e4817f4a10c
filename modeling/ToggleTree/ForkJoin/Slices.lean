import ToggleTree.ForkJoin.Cells
import ToggleTree.ForkJoin.Logic

/-!
# Branches that work on slices of the state

A state has one slice for every key. A branch that holds the token of a key knows its slice and is the
only one to change it, so that it can be followed as if it were alone. When it has finished, it gives
the token up. The verifier chooses what must hold of finished slices, of all slices at all times, and
of the rest of the state.
-/

namespace ForkJoin

open Prog

variable {σ ι κ τ α β : Type}

/-- The slices of a state, and what is required of them. -/
structure Slicing (σ κ τ : Type) where
  slice : σ → κ → τ
  /-- What no branch changes. -/
  Fixed : σ → Prop
  /-- What holds of a slice at all times. -/
  Way : κ → τ → Prop
  /-- What holds of a slice once its branch has finished. -/
  Done : κ → τ → Prop

namespace Slicing

variable (V : Slicing σ κ τ)

/-- The branches that have not finished hold the given tokens. -/
structure Inv (s : σ) (tokens : Multiset (κ × τ)) : Prop where
  fixed : V.Fixed s
  holds : Holds (V.slice s) tokens
  way : ∀ k, V.Way k (V.slice s k)
  done : ∀ k, k ∉ tokens.map Prod.fst → V.Done k (V.slice s k)

/-- The protocol in which every program owns some slices: the slices that are owned are as their owners
left them. -/
def protocol : Protocol σ (Multiset (κ × τ)) where
  inv := V.Inv
  rel _ _ := True
  refl _ := trivial
  trans _ _ := trivial

variable {V} {env : ι → Prog σ ι Unit} {Q : α → σ → Multiset (κ × τ) → Prop} {k : κ} {x : τ} {s : σ}

/-- The tokens of some keys are one for each of them. -/
theorem sum_tokens (c : κ → τ) (S : Finset κ) : ∑ v ∈ S, ({(v, c v)} : Multiset (κ × τ)) = cells c S := by
  rw [cells, Finset.sum, ← Multiset.sum_map_singleton (S.val.map fun v => (v, c v)), Multiset.map_map]
  rfl

/-- The invariant holds at the start for the owners of the slices. -/
theorem Inv.start {S : Finset κ} (hfixed : V.Fixed s) (hway : ∀ k, V.Way k (V.slice s k))
    (hdone : ∀ k ∉ S, V.Done k (V.slice s k)) : V.Inv s (∑ v ∈ S, {(v, V.slice s v)}) where
  fixed := hfixed
  holds := by
    rw [sum_tokens]
    exact Holds.of_cells _ S
  way := hway
  done k hk := by
    rw [sum_tokens, keys_cells] at hk
    exact hdone k hk

/-- The branch with the token knows its slice. -/
theorem Inv.eq {o : Multiset (κ × τ)} (h : V.Inv s ({(k, x)} + o)) : V.slice s k = x :=
  h.holds.eq (k, x) (Multiset.mem_add.mpr (Or.inl (Multiset.mem_singleton_self (k, x))))

/-- A read of the own slice. -/
theorem look {f : σ → β} {c : β} {next : β → Prog σ ι α} (hf : ∀ s, V.Fixed s → V.slice s k = x → f s = c)
    (hnext : ∀ s, Ensures V.protocol env Q (next c) s {(k, x)}) :
    Ensures V.protocol env Q (Prog.read f >>= next) s {(k, x)} := by
  refine Ensures.read fun s' o _ hinv => ?_
  rw [hf s' hinv.fixed (Inv.eq hinv)]
  exact hnext s'

/-- A step that turns the own slice into `y`. -/
theorem change [DecidableEq κ] {y : τ} {act : σ → β × σ} {next : β → Prog σ ι α}
    (hact : ∀ s, V.Fixed s → V.slice s k = x →
      V.Fixed (act s).2 ∧ V.slice (act s).2 = Function.update (V.slice s) k y)
    (hway : V.Way k y) (hnext : ∀ b s, Ensures V.protocol env Q (next b) s {(k, y)}) :
    Ensures V.protocol env Q (Prog.act act >>= next) s {(k, x)} := by
  refine Ensures.act fun s' o _ hinv => ?_
  have hx : V.slice s' k = x := Inv.eq hinv
  obtain ⟨hfixed, hslice⟩ := hact s' hinv.fixed hx
  have hother : ∀ j, j ≠ k → V.slice (act s').2 j = V.slice s' j := fun j hj => by
    rw [hslice, Function.update_of_ne hj]
  have hself : V.slice (act s').2 k = y := by rw [hslice, Function.update_self]
  have hholds : Holds (V.slice s') (cells (V.slice s') {k} + o) := by
    have htokens : ({(k, x)} : Multiset (κ × τ)) = cells (V.slice s') {k} := by
      rw [← hx]
      rfl
    rw [← htokens]
    exact hinv.holds
  have htokens : ({(k, y)} : Multiset (κ × τ)) = cells (V.slice (act s').2) {k} := by
    rw [← hself]
    rfl
  refine ⟨{(k, y)}, trivial, ⟨hfixed, ?_, fun j => ?_, fun j hj => ?_⟩, hnext _ _⟩
  · rw [htokens]
    exact hholds.write (Finset.mem_singleton_self k) hother hother rfl
  · by_cases hj : j = k
    · rw [hj, hself]
      exact hway
    · rw [hother j hj]
      exact hinv.way j
  · rw [Multiset.map_add, Multiset.mem_add, not_or, Multiset.map_singleton, Multiset.mem_singleton] at hj
    rw [hother j hj.1]
    refine hinv.done j ?_
    rw [Multiset.map_add, Multiset.mem_add, not_or, Multiset.map_singleton, Multiset.mem_singleton]
    exact hj

/-- A branch that returns with its slice finished. -/
theorem ret {v : α} {R : α → Prop} (hdone : V.Done k x) (hv : R v) :
    Ensures V.protocol env (fun v _ a => R v ∧ a = 0) (Prog.ret v) s {(k, x)} := by
  refine Ensures.ret fun s' o _ hinv => ⟨0, ⟨hinv.fixed, ⟨?_, fun p hp => ?_⟩, hinv.way, fun j hj => ?_⟩, hv, rfl⟩
  · rw [zero_add]
    have hnodup := hinv.holds.nodup
    rw [Multiset.map_add] at hnodup
    exact (Multiset.nodup_add.mp hnodup).2.1
  · rw [zero_add] at hp
    exact hinv.holds.eq p (Multiset.mem_add.mpr (Or.inr hp))
  · rw [zero_add] at hj
    by_cases hjk : j = k
    · rw [hjk, hinv.holds.eq (k, x) (Multiset.mem_add.mpr (Or.inl (Multiset.mem_singleton_self _)))]
      exact hdone
    · refine hinv.done j ?_
      rw [Multiset.map_add, Multiset.mem_add, not_or, Multiset.map_singleton, Multiset.mem_singleton]
      exact ⟨hjk, hj⟩

end Slicing

end ForkJoin
