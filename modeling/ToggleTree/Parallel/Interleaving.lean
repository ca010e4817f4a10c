import Mathlib.Algebra.Order.BigOperators.Group.Finset
import Mathlib.Data.Fintype.BigOperators
import Mathlib.Tactic

/-!
# Interleavings of calls that share a cell

Finitely many calls run concurrently on one shared value. Each of them is in a phase of its own and
changes the shared value by one access at a time, and the order of the accesses is arbitrary. Counting
the calls in a kind of phase is how such calls are accounted for.

Nothing here refers to a particular program.
-/

namespace Interleaving

variable {ι C P : Type} [DecidableEq ι]

/-- The shared value and where every call is. -/
structure Calls (ι C P : Type) where
  shared : C
  phase : ι → P

/-- The next access of one call. -/
def step (access : ι → C → P → C × P) (s : Calls ι C P) (i : ι) : Calls ι C P where
  shared := (access i s.shared (s.phase i)).1
  phase := Function.update s.phase i (access i s.shared (s.phase i)).2

/-- The accesses of the calls in a given order. -/
def run (access : ι → C → P → C × P) (order : List ι) (s : Calls ι C P) : Calls ι C P :=
  order.foldl (step access) s

variable {access : ι → C → P → C × P} {s : Calls ι C P} {order : List ι}

/-- One more access at the end of an order. -/
theorem run_concat (i : ι) : run access (order ++ [i]) s = step access (run access order s) i := by
  rw [run, List.foldl_append]
  rfl

/-- What every access keeps holds after every interleaving. -/
theorem run_invariant {I : Calls ι C P → Prop} (h : I s) (hstep : ∀ s i, I s → I (step access s i)) :
    I (run access order s) := by
  induction order generalizing s with
  | nil => exact h
  | cons i order ih => exact ih (hstep s i h)

/-- Every access of an interleaving belongs to a call that has not returned. -/
def Effective (access : ι → C → P → C × P) (running : P → Bool) (order : List ι) (s : Calls ι C P) : Prop :=
  ∀ l i l', order = l ++ i :: l' → running ((run access l s).phase i) = true

/-- A measure that every access lowers bounds the length of the interleavings. -/
theorem length_add_le {running : P → Bool} (work : Calls ι C P → ℕ) (h : Effective access running order s)
    (hstep : ∀ s i, running (s.phase i) = true → work (step access s i) < work s) :
    order.length + work (run access order s) ≤ work s := by
  induction order using List.reverseRecOn with
  | nil => exact (Nat.zero_add _).le
  | append_singleton order i ih =>
    have hle := ih fun l j l' heq => h l j (l' ++ [i]) (by rw [heq, List.append_assoc, List.cons_append])
    have hlt := hstep _ i (h order i [] rfl)
    rw [run_concat, List.length_append, List.length_singleton]
    omega

section Count

variable [Fintype ι]

/-- The number of calls in a kind of phase. -/
def count (p : P → Bool) (phase : ι → P) : ℕ := ∑ i, (p (phase i)).toNat

variable {p : P → Bool} {phase : ι → P}

/-- One call changes its phase. -/
theorem count_update (p : P → Bool) (phase : ι → P) (i : ι) (x : P) :
    count p (Function.update phase i x) + (p (phase i)).toNat = count p phase + (p x).toNat := by
  have hrest : ∑ j ∈ Finset.univ.erase i, (p (Function.update phase i x j)).toNat =
      ∑ j ∈ Finset.univ.erase i, (p (phase j)).toNat :=
    Finset.sum_congr rfl fun j hj => by rw [Function.update_of_ne (Finset.ne_of_mem_erase hj)]
  have hnew := Finset.add_sum_erase Finset.univ (fun j => (p (Function.update phase i x j)).toNat)
    (Finset.mem_univ i)
  have hold := Finset.add_sum_erase Finset.univ (fun j => (p (phase j)).toNat) (Finset.mem_univ i)
  rw [Function.update_self, hrest] at hnew
  unfold count
  omega

omit [DecidableEq ι] in
/-- The number of threads in one phase when all are. -/
theorem count_const (x : P) : count p (fun _ : ι => x) = Fintype.card ι * (p x).toNat := by
  rw [count, Finset.sum_const, Finset.card_univ, smul_eq_mul]

omit [DecidableEq ι] in
/-- There are at most as many threads in a phase as threads. -/
theorem count_le_card : count p phase ≤ Fintype.card ι := by
  calc count p phase ≤ ∑ _i : ι, 1 := Finset.sum_le_sum fun i _ => Bool.toNat_le _
    _ = Fintype.card ι := by rw [Finset.sum_const, Finset.card_univ, smul_eq_mul, Nat.mul_one]

omit [DecidableEq ι] in
/-- The number of threads in a phase is a cardinality. -/
theorem count_eq_card : count p phase = (Finset.univ.filter fun i => p (phase i) = true).card := by
  rw [count, Finset.card_filter]
  refine Finset.sum_congr rfl fun i _ => ?_
  cases p (phase i) with
  | false => rfl
  | true => rfl

omit [DecidableEq ι] in
/-- No thread is in a phase. -/
theorem count_eq_zero_iff : count p phase = 0 ↔ ∀ i, p (phase i) = false := by
  rw [count_eq_card, Finset.card_eq_zero, Finset.filter_eq_empty_iff]
  simp

omit [DecidableEq ι] in
/-- One thread in a phase is the only one. -/
theorem existsUnique_of_count (h : count p phase = 1) : ∃! i, p (phase i) = true := by
  rw [count_eq_card, Finset.card_eq_one] at h
  obtain ⟨i, hi⟩ := h
  have hmem (j : ι) : p (phase j) = true ↔ j = i := by
    have hj := Finset.mem_singleton (a := i) (b := j)
    rwa [← hi, Finset.mem_filter, and_iff_right (Finset.mem_univ j)] at hj
  exact ⟨i, (hmem i).mpr rfl, fun j hj => (hmem j).mp hj⟩

end Count

end Interleaving
