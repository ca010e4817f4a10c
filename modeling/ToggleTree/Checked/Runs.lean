import Mathlib.Data.Nat.Count
import Mathlib.Tactic

/-!
# Runs of equal values

In an ascending sequence equal values stand next to each other. The position where the current run
begins is known from one pass over the sequence, and the length of a run is the number of times
that its value occurs.

Nothing here refers to a particular program.
-/

namespace SortedRuns

/-- `v` occurs most often, and it is the largest value that does. -/
def IsMode (l : List ℕ) (v : ℕ) : Prop := v ∈ l ∧ ∀ x ∈ l, l.count x < l.count v ∨ l.count x = l.count v ∧ x ≤ v

/-- The mode does not depend on the order. -/
theorem IsMode.perm {l l' : List ℕ} {v : ℕ} (h : IsMode l v) (hperm : l.Perm l') : IsMode l' v := by
  refine ⟨hperm.mem_iff.mp h.1, fun x hx => ?_⟩
  rw [← hperm.count_eq, ← hperm.count_eq]
  exact h.2 x (hperm.mem_iff.mpr hx)

/-- The value that is taken most often is taken at some position. -/
theorem IsMode.exists_index {g : ℕ → ℕ} {n v : ℕ} (h : IsMode ((List.range n).map g) v) : ∃ i < n, g i = v := by
  obtain ⟨i, hi, heq⟩ := List.mem_map.mp h.1
  exact ⟨i, List.mem_range.mp hi, heq⟩

/-- Position `i` begins a run. -/
def Begins (g : ℕ → ℕ) (i : ℕ) : Prop := i = 0 ∨ g i ≠ g (i - 1)

/-- Position `i` ends a run among the first `n` positions. -/
def Ends (g : ℕ → ℕ) (n i : ℕ) : Prop := i + 1 = n ∨ g (i + 1) ≠ g i

/-- Whether a run begins can be decided. -/
instance (g : ℕ → ℕ) (i : ℕ) : Decidable (Begins g i) := inferInstanceAs (Decidable (_ ∨ _))

/-- Whether a run ends can be decided. -/
instance (g : ℕ → ℕ) (n i : ℕ) : Decidable (Ends g n i) := inferInstanceAs (Decidable (_ ∨ _))

/-- The latest position before `i` that begins a run. -/
def start (g : ℕ → ℕ) : ℕ → ℕ
  | 0 => 0
  | i + 1 => max (start g i) (if Begins g i then i else 0)

variable {g : ℕ → ℕ} {n i k v : ℕ}

/-- Occurrences in a list are positions that count. -/
theorem count_eq (g : ℕ → ℕ) (n v : ℕ) : ((List.range n).map g).count v = Nat.count (fun k => g k = v) n := by
  rw [List.count, List.countP_map, Nat.count]
  refine List.countP_congr fun k _ => ?_
  simp only [Function.comp_apply, beq_iff_eq, decide_eq_true_eq]

/-- An interval of positions is as long as the number of them. -/
theorem count_interval {a b : ℕ} (hb : b ≤ n) (h : ∀ k < n, g k = v ↔ a ≤ k ∧ k < b) :
    Nat.count (fun k => g k = v) n = b - a := by
  rw [Nat.count_eq_card_filter_range, ← Nat.card_Ico]
  congr 1
  ext k
  rw [Finset.mem_filter, Finset.mem_range, Finset.mem_Ico]
  constructor
  · rintro ⟨hk, hv⟩
    exact (h k hk).mp hv
  · intro hk
    exact ⟨hk.2.trans_le hb, (h k (hk.2.trans_le hb)).mpr hk⟩

/-- The beginning of a run that starts here. -/
theorem start_succ_of_begins (hle : start g i ≤ i) (h : Begins g i) : start g (i + 1) = i := by
  rw [start, if_pos h, max_eq_right hle]

/-- The beginning of a run that goes on. -/
theorem start_succ_of_not_begins (h : ¬Begins g i) : start g (i + 1) = start g i := by
  rw [start, if_neg h, Nat.max_zero]

section Ascending

variable (hg : ∀ i j, i ≤ j → j < n → g i ≤ g j)
include hg

/-- From the start of the run up to `i` the values are equal, and before it they are smaller. -/
theorem start_spec (hi : i < n) : start g (i + 1) ≤ i ∧ (∀ k, start g (i + 1) ≤ k → k ≤ i → g k = g i) ∧
    ∀ k < start g (i + 1), g k < g i := by
  induction i with
  | zero =>
    rw [start_succ_of_begins (i := 0) le_rfl (Or.inl rfl)]
    refine ⟨le_rfl, fun k _ hk => ?_, fun k hk => absurd hk (Nat.not_lt_zero k)⟩
    rw [Nat.le_zero.mp hk]
  | succ i ih =>
    obtain ⟨hle, hrun, hbefore⟩ := ih (Nat.lt_of_succ_lt hi)
    by_cases hbegins : Begins g (i + 1)
    · have hne : g (i + 1) ≠ g i := hbegins.resolve_left (Nat.succ_ne_zero i)
      have hlt : g i < g (i + 1) := lt_of_le_of_ne (hg i (i + 1) (Nat.le_succ i) hi) (Ne.symm hne)
      rw [start_succ_of_begins (Nat.le_succ_of_le hle) hbegins]
      refine ⟨le_rfl, fun k hk hk' => by rw [le_antisymm hk' hk], fun k hk => ?_⟩
      exact (hg k i (Nat.le_of_lt_succ hk) (Nat.lt_of_succ_lt hi)).trans_lt hlt
    · have heq : g (i + 1) = g i := not_not.mp fun hne => hbegins (Or.inr hne)
      rw [start_succ_of_not_begins hbegins, heq]
      refine ⟨Nat.le_succ_of_le hle, fun k hk hk' => ?_, hbefore⟩
      rcases Nat.le_succ_iff.mp hk' with hk' | rfl
      · exact hrun k hk hk'
      · exact heq

/-- The length of a run is the number of times that its value occurs. -/
theorem run_length (hi : i < n) (hends : Ends g n i) :
    ((List.range n).map g).count (g i) = i + 1 - start g (i + 1) := by
  obtain ⟨hle, hrun, hbefore⟩ := start_spec hg hi
  rw [count_eq]
  refine count_interval (Nat.succ_le_of_lt hi) fun k hk => ?_
  constructor
  · intro heq
    constructor
    · by_contra hlt
      exact absurd heq (hbefore k (not_le.mp hlt)).ne
    · by_contra hge
      have hne : g (i + 1) ≠ g i := hends.resolve_left (by omega)
      have hlow : g i ≤ g (i + 1) := hg i (i + 1) (Nat.le_succ i) (by omega)
      have hhigh : g (i + 1) ≤ g k := hg (i + 1) k (not_lt.mp hge) hk
      omega
  · rintro ⟨hk, hk'⟩
    exact hrun k hk (Nat.le_of_lt_succ hk')

omit hg in
/-- Every value that occurs ends a run somewhere. -/
theorem exists_ends (hk : k < n) : ∃ i < n, Ends g n i ∧ g i = g k := by
  induction hlength : n - k generalizing k with
  | zero => omega
  | succ length ih =>
    by_cases hends : Ends g n k
    · exact ⟨k, hk, hends, rfl⟩
    · rw [Ends, not_or, not_not] at hends
      obtain ⟨i, hi, hends', heq⟩ := ih (k := k + 1) (by omega) (by omega)
      exact ⟨i, hi, hends', heq.trans hends.2⟩

end Ascending

/-- Counts and values in one number, the count first: the largest of these numbers belongs to the mode. -/
theorem isMode_of_max {width : ℕ} (hwidth : ∀ i < n, g i < width) (hi : i < n)
    (hmax : ∀ k < n, ((List.range n).map g).count (g k) * width + g k ≤
      ((List.range n).map g).count (g i) * width + g i) :
    IsMode ((List.range n).map g) (g i) := by
  refine ⟨List.mem_map.mpr ⟨i, List.mem_range.mpr hi, rfl⟩, fun x hx => ?_⟩
  obtain ⟨k, hk, rfl⟩ := List.mem_map.mp hx
  have hk := List.mem_range.mp hk
  have hle := hmax k hk
  have hwk := hwidth k hk
  have hwi := hwidth i hi
  rcases lt_trichotomy (((List.range n).map g).count (g k))
    (((List.range n).map g).count (g i)) with hlt | heq | hgt
  · exact Or.inl hlt
  · rw [heq] at hle
    exact Or.inr ⟨heq, Nat.le_of_add_le_add_left hle⟩
  · have hmul := Nat.mul_le_mul_right width (Nat.succ_le_of_lt hgt)
    rw [Nat.succ_mul] at hmul
    omega

end SortedRuns
