import Mathlib.Data.BitVec
import ToggleTree.Checked.Reduce
import ToggleTree.ForkJoin.Reduce
import ToggleTree.Parallel.Word

/-!
# Reductions of pure values

The bounds and the midpoint are 64-bit words. For a monoid the result is the fold of the whole
range from left to right, wherever the range is split and whichever branch runs first. Where the
bounds need not be words, the reduction of programs and that of checked loops stand for the same
source: they agree with this one.
-/

namespace ToggleTree

open ForkJoin ForkJoin.Prog

namespace Primitives

variable {σ ι β : Type}

/-- The loop over one leaf of the reduction. -/
def foldRange (combine : β → β → β) (f : Word → β) (i stop : Word) (aggregate : β) : β :=
  if i < stop then foldRange combine f (i + 1) stop (combine aggregate (f i)) else aggregate
termination_by stop.toNat - i.toNat
decreasing_by bv_omega

/-- The lengths of the two halves of a range. -/
theorem half_lengths (start stop : Word) :
    (start + (stop - start) / 2 - start).toNat = (stop - start).toNat / 2 ∧
    (stop - (start + (stop - start) / 2)).toNat = (stop - start).toNat - (stop - start).toNat / 2 := by
  have hhalf : ((stop - start) / 2).toNat = (stop - start).toNat / 2 := BitVec.toNat_udiv
  constructor
  · rw [add_sub_cancel_left, hhalf]
  · rw [← sub_sub, BitVec.toNat_sub_of_le (BitVec.le_def.mpr (by omega)), hhalf]

/-- Fold `[start, stop)` in halves. A granularity of zero, for which the source would split single
iterations forever, is treated as one. -/
def reduce (combine : β → β → β) (identity : β) (f : Word → β) (granularity start stop : Word) : Prog σ ι β :=
  if stop - start ≤ granularity ∨ stop - start ≤ 1 then ret (foldRange combine f start stop identity)
  else
    let mid := start + (stop - start) / 2
    fork (reduce combine identity f granularity start mid) (reduce combine identity f granularity mid stop)
      fun left right => ret (combine left right)
termination_by (stop - start).toNat
decreasing_by
  · rw [(half_lengths start stop).1]
    bv_omega
  · rw [(half_lengths start stop).2]
    bv_omega

/-- The values of `f` on a range. -/
def valuesOf (f : Word → β) (start stop : Word) : List β :=
  (List.range' start.toNat (stop.toNat - start.toNat)).map fun i => f (BitVec.ofNat 64 i)

section Ranges

variable {combine : β → β → β} {identity : β} {f : Word → β} {start mid stop : Word}

/-- An empty range has no values. -/
theorem valuesOf_empty (h : stop ≤ start) : valuesOf f start stop = [] := by
  rw [valuesOf, Nat.sub_eq_zero_of_le (BitVec.le_def.mp h)]
  rfl

/-- The first value and the others. -/
theorem valuesOf_step (h : start < stop) : valuesOf f start stop = f start :: valuesOf f (start + 1) stop := by
  have hlt := BitVec.lt_def.mp h
  have hnext : (start + 1).toNat = start.toNat + 1 := by bv_omega
  rw [valuesOf, valuesOf, hnext, show stop.toNat - start.toNat = stop.toNat - (start.toNat + 1) + 1 by omega,
    List.range'_succ, List.map_cons, BitVec.ofNat_toNat, BitVec.setWidth_eq]

/-- The values of two ranges, one after the other. -/
theorem valuesOf_append (h : start ≤ mid) (h' : mid ≤ stop) :
    valuesOf f start mid ++ valuesOf f mid stop = valuesOf f start stop := by
  have hle := BitVec.le_def.mp h
  have hle' := BitVec.le_def.mp h'
  rw [valuesOf, valuesOf, valuesOf, ← List.map_append]
  congr 1
  have happend := List.range'_append_1 (s := start.toNat) (m := mid.toNat - start.toNat)
    (n := stop.toNat - mid.toNat)
  rw [show start.toNat + (mid.toNat - start.toNat) = mid.toNat by omega] at happend
  rw [happend]
  congr 1
  omega

/-- The sequential reduction is a left fold. -/
theorem foldRange_eq_foldl (start stop : Word) (aggregate : β) :
    foldRange combine f start stop aggregate = (valuesOf f start stop).foldl combine aggregate := by
  induction start, aggregate using foldRange.induct combine f stop with
  | case1 i aggregate h ih => rw [foldRange, if_pos h, ih, valuesOf_step h, List.foldl_cons]
  | case2 i aggregate h => rw [foldRange, if_neg h, valuesOf_empty (BitVec.not_lt.mp h), List.foldl_nil]

/-- The midpoint does not overflow. -/
theorem midpoint_mem (h : start ≤ stop) :
    start ≤ start + (stop - start) / 2 ∧ start + (stop - start) / 2 ≤ stop := by
  have hhalf : ((stop - start) / 2).toNat = (stop - start).toNat / 2 := BitVec.toNat_udiv
  generalize (stop - start) / 2 = half at hhalf ⊢
  constructor
  · bv_omega
  · bv_omega

end Ranges

section Monoid

variable {combine : β → β → β} {identity : β} {f : Word → β} {granularity start stop : Word}

/-- Folds of neighbouring ranges combine. -/
theorem combine_foldl (hassoc : ∀ a b c, combine (combine a b) c = combine a (combine b c))
    (hright : ∀ a, combine a identity = a) (xs ys : List β) :
    combine (xs.foldl combine identity) (ys.foldl combine identity) = (xs ++ ys).foldl combine identity := by
  have : Std.Associative combine := ⟨hassoc⟩
  have hfold : combine (xs.foldl combine identity) (ys.foldl combine identity) =
      ys.foldl combine (combine (xs.foldl combine identity) identity) := List.foldl_assoc.symm
  rw [hfold, hright, List.foldl_append]

/-- Whatever runs next to it, a reduction of pure values returns the fold of its range. -/
theorem reduce_ensures {M : Type} [AddCommMonoid M] {P : Protocol σ M} {env : ι → Prog σ ι Unit}
    (hassoc : ∀ a b c, combine (combine a b) c = combine a (combine b c))
    (hright : ∀ a, combine a identity = a) (hle : start ≤ stop) (s : σ) :
    Ensures P env (fun v _ c => v = (valuesOf f start stop).foldl combine identity ∧ c = 0)
      (reduce combine identity f granularity start stop) s 0 := by
  induction hn : (stop - start).toNat using Nat.strong_induction_on generalizing start stop with
  | _ n ih =>
    rw [reduce]
    split
    · exact Ensures.ret fun s' o _ hinv => ⟨0, hinv, foldRange_eq_foldl start stop identity, rfl⟩
    · next hlong =>
      obtain ⟨hmid, hmid'⟩ := midpoint_mem hle
      obtain ⟨hlength, hlength'⟩ := half_lengths start stop
      have htwo : 2 ≤ n := by bv_omega
      have h := ih _ (by omega) hmid rfl
      have h' := ih _ (by omega) hmid' rfl
      suffices hfork : Ensures P env _ (fork _ _ _) s (0 + 0) by rwa [add_zero] at hfork
      refine h.fork h' ?_
      rintro v w s' _ _ ⟨rfl, rfl⟩ ⟨rfl, rfl⟩
      refine Ensures.ret fun s'' o _ hinv => ⟨_, hinv, ?_, add_zero 0⟩
      rw [combine_foldl hassoc hright, valuesOf_append hmid hmid']

end Monoid

/-- In a monoid neither the splits of a reduction nor its schedule can be seen in the result. Both
folds start from the identity, so it need only be neutral on the right. -/
theorem reduce_eq_foldl (env : ι → Prog σ ι Unit) (combine : β → β → β) (identity : β) (f : Word → β)
    (hassoc : ∀ a b c, combine (combine a b) c = combine a (combine b c))
    (hright : ∀ a, combine a identity = a) (granularity start stop : Word) (_hgranularity : 1 ≤ granularity)
    (hle : start ≤ stop) (s : σ) :
    Total env (fun v s' => v = (valuesOf f start stop).foldl combine identity ∧
      (start = stop → v = identity) ∧ s' = s) (reduce combine identity f granularity start stop) s := by
  let frozen : Protocol σ ℕ := ⟨fun _ _ => True, fun s s' => s = s', fun _ => rfl, fun h h' => h.trans h'⟩
  refine ((reduce_ensures (P := frozen) hassoc hright hle s).total trivial).mono ?_
  rintro v s' ⟨rfl, _, _, rfl, _⟩
  refine ⟨rfl, ?_, rfl⟩
  rintro rfl
  rw [valuesOf_empty (BitVec.le_refl start)]
  rfl

/-- Appending lists does not commute, and the order is kept. -/
theorem reduce_eq_foldl_append : Total (fun e : Empty => e.elim)
    (fun v s' => v = (valuesOf (fun i => [i]) 0 3).foldl (· ++ ·) [] ∧ ((0 : Word) = 3 → v = []) ∧ s' = ())
    (reduce (· ++ ·) [] (fun i => [i]) 1 0 3) () :=
  reduce_eq_foldl (fun e : Empty => e.elim) (· ++ ·) [] (fun i => [i]) List.append_assoc
    List.append_nil 1 0 3 (by decide) (by decide) ()

section Models

variable {combine : β → β → β} {identity : β}

/-- A sequential loop whose iterations return at once. -/
theorem foldFor_ret (step : ℕ → β → β) (start stop : ℕ) (b : β) :
    (foldFor start stop b fun i b => ret (step i b) : Prog σ ι β) =
      ret ((List.range' start (stop - start)).foldl (fun b i => step i b) b) := by
  induction hn : stop - start generalizing start b with
  | zero =>
    unfold foldFor
    rw [if_neg (by omega)]
    rfl
  | succ n ih =>
    unfold foldFor
    rw [if_pos (by omega), ret_bind, ih (start + 1) _ (by omega), List.range'_succ, List.foldl_cons]

/-- On words in order, the reduction is the one of the programs on their numbers. -/
theorem reduce_eq_prog (f : Word → β) (granularity : Word) {start stop : Word} (hle : start ≤ stop) :
    (reduce combine identity f granularity start stop : Prog σ ι β) =
      Prog.reduce combine identity granularity.toNat start.toNat stop.toNat fun i =>
        ret (f (BitVec.ofNat 64 i)) := by
  induction hn : (stop - start).toNat using Nat.strong_induction_on generalizing start stop with
  | _ n ih =>
    have hlength : (stop - start).toNat = stop.toNat - start.toNat := BitVec.toNat_sub_of_le hle
    have hshort : stop - start ≤ granularity ∨ stop - start ≤ 1 ↔
      stop.toNat - start.toNat ≤ max granularity.toNat 1 := by
      rw [BitVec.le_def, BitVec.le_def, hlength]
      exact le_max_iff.symm
    unfold reduce Prog.reduce
    by_cases h : stop - start ≤ granularity ∨ stop - start ≤ 1
    · rw [if_pos h, if_pos (hshort.mp h), foldRange_eq_foldl, valuesOf, List.foldl_map]
      exact (foldFor_ret (fun i b => combine b (f (BitVec.ofNat 64 i))) start.toNat stop.toNat identity).symm
    · rw [if_neg h, if_neg fun h' => h (hshort.mpr h')]
      obtain ⟨hmid, hmid'⟩ := midpoint_mem hle
      obtain ⟨hleft, hright⟩ := half_lengths start stop
      have hhalf : (start + (stop - start) / 2).toNat = start.toNat + (stop.toNat - start.toNat) / 2 := by
        rw [BitVec.toNat_sub_of_le hmid, hlength] at hleft
        have := BitVec.le_def.mp hmid
        omega
      have htwo : 2 ≤ n := by
        rw [hshort] at h
        omega
      dsimp only
      rw [ih _ (by omega) hmid hleft, ih _ (by omega) hmid' rfl, hhalf]

/-- Whatever runs next to it, a reduction of programs that return at once returns what the checked reduction
of their values does. -/
theorem ensures_reduce_checked {M : Type} [AddCommMonoid M] {P : Protocol σ M}
    {env : ι → Prog σ ι Unit} (g : ℕ → β) (granularity start stop : ℕ) (s : σ) :
    Ensures P env (fun v _ c => Checked.reduce combine identity granularity start stop
      (fun i => some (g i)) = some v ∧ c = 0)
      (Prog.reduce combine identity granularity start stop fun i => ret (g i)) s 0 := by
  induction hn : stop - start using Nat.strong_induction_on generalizing start stop with
  | _ n ih =>
    unfold Prog.reduce Checked.reduce
    by_cases h : stop - start ≤ max granularity 1
    · rw [if_pos h, if_pos h]
      have hloop : Checked.loop start stop identity (fun i aggregate => do
          let x ← some (g i)
          some (combine aggregate x)) =
          some ((List.range' start (stop - start)).foldl (fun b i => combine b (g i)) identity) :=
        List.foldlM_pure
      rw [hloop]
      have hprog : (foldFor start stop identity fun i aggregate => do
          let value ← ret (g i)
          ret (combine aggregate value) : Prog σ ι β) = _ :=
        foldFor_ret (fun i b => combine b (g i)) start stop identity
      rw [hprog]
      exact Ensures.ret fun _ _ _ hinv => ⟨0, hinv, rfl, rfl⟩
    · rw [if_neg h, if_neg h]
      suffices hfork : Ensures P env _ (fork _ _ _) s (0 + 0) by rwa [add_zero] at hfork
      refine (ih _ (by omega) start _ rfl).fork (ih _ (by omega) _ stop rfl) ?_
      rintro v w s' _ _ ⟨hv, rfl⟩ ⟨hw, rfl⟩
      refine Ensures.ret fun s'' o _ hinv => ⟨_, hinv, ?_, add_zero 0⟩
      dsimp only
      rw [hv, hw]
      rfl

end Models

end Primitives

end ToggleTree
