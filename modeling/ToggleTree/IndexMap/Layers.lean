import ToggleTree.IndexMap.PrefixMin
import ToggleTree.IndexMap.Run

/-!
# Layers of increasing subsequences

Repeated extraction of the prefix minima sorts the indices by the length of the longest strictly
increasing subsequence that ends at them: an index stays exactly if an earlier index with a lower
value has stayed so far.
-/

namespace ToggleTree

open Checked

namespace IndexMap

open IndexSet

variable {T : Type} [LinearOrder T]

/-- Positions, ascending, of strictly increasing values. -/
def Increasing (sequence : ℕ → T) (l : List ℕ) : Prop := l.Pairwise fun i j => i < j ∧ sequence i < sequence j

/-- The lengths of the strictly increasing subsequences that end at position `i`. -/
def lengthsAt (sequence : ℕ → T) (i : ℕ) : Set ℕ :=
  {k | ∃ l, Increasing sequence l ∧ l.getLast? = some i ∧ l.length = k}

/-- The lengths of the strictly increasing subsequences of the first `n` values. -/
def lengths (sequence : ℕ → T) (n : ℕ) : Set ℕ :=
  {k | ∃ l, Increasing sequence l ∧ (∀ i ∈ l, i < n) ∧ l.length = k}

section Lengths

variable {sequence : ℕ → T} {n i k r : ℕ} {l : List ℕ}

/-- The last part of a subsequence is one that ends at the same position. -/
theorem mem_lengthsAt_of_le (h : k + 1 ∈ lengthsAt sequence i) (hr : r ≤ k) : r + 1 ∈ lengthsAt sequence i := by
  obtain ⟨l, hinc, hlast, hlen⟩ := h
  refine ⟨l.drop (k - r), List.Pairwise.drop hinc, ?_, by rw [List.length_drop, hlen]; omega⟩
  rw [List.getLast?_drop, if_neg (by omega), hlast]

/-- A single element is an increasing subsequence. -/
theorem one_mem_lengthsAt : 1 ∈ lengthsAt sequence i := ⟨[i], List.pairwise_singleton _ _, rfl, rfl⟩

/-- A subsequence of length at least two continues one that ends at an earlier position of lower value. -/
theorem succ_mem_lengthsAt :
    r + 1 + 1 ∈ lengthsAt sequence i ↔ ∃ j < i, sequence j < sequence i ∧ r + 1 ∈ lengthsAt sequence j := by
  constructor
  · rintro ⟨l, hinc, hlast, hlen⟩
    obtain ⟨before, rfl⟩ := List.getLast?_eq_some_iff.mp hlast
    have hlen' : before.length = r + 1 := by simpa using hlen
    obtain ⟨hbefore, _, hlt⟩ := List.pairwise_append.mp hinc
    have hne : before ≠ [] := List.ne_nil_of_length_pos (by omega)
    have hj := hlt _ (List.getLast_mem hne) i List.mem_cons_self
    exact ⟨before.getLast hne, hj.1, hj.2, before, hbefore, List.getLast?_eq_some_getLast hne, hlen'⟩
  · rintro ⟨j, hji, hvalue, before, hinc, hlast, hlen⟩
    refine ⟨before ++ [i], ?_, List.getLast?_concat, by simp [hlen]⟩
    refine List.pairwise_append.mpr ⟨hinc, List.pairwise_singleton _ _, fun k hk i' hi' => ?_⟩
    rw [List.mem_singleton.mp hi']
    -- the position before `i` bounds all earlier ones
    obtain ⟨first, rfl⟩ := List.getLast?_eq_some_iff.mp hlast
    rcases List.mem_append.mp hk with hk | hk
    · have hkj := (List.pairwise_append.mp hinc).2.2 k hk j List.mem_cons_self
      exact ⟨hkj.1.trans hji, hkj.2.trans hvalue⟩
    · rw [List.mem_singleton.mp hk]
      exact ⟨hji, hvalue⟩

/-- There is a longest subsequence. -/
theorem exists_isGreatest_lengths (sequence : ℕ → T) (n : ℕ) : ∃ L, IsGreatest (lengths sequence n) L := by
  have hbound : ∀ k ∈ lengths sequence n, k ≤ n := by
    rintro k ⟨l, hinc, hlt, rfl⟩
    have hnodup : l.Nodup := hinc.imp fun h => h.1.ne
    have hsub : l.toFinset ⊆ Finset.range n := fun i hi => Finset.mem_range.mpr (hlt i (List.mem_toFinset.mp hi))
    have hcard := Finset.card_le_card hsub
    rwa [List.toFinset_card_of_nodup hnodup, Finset.card_range] at hcard
  have hne : (lengths sequence n).Nonempty :=
    ⟨0, [], List.Pairwise.nil, fun i hi => absurd hi List.not_mem_nil, rfl⟩
  exact BddAbove.exists_isGreatest_of_nonempty ⟨n, hbound⟩ hne

end Lengths

variable [OrderTop T]

/-- The indices that are left when the prefix minima of the first `n` values have been removed `r` times. -/
def level (sequence : ℕ → T) (n : ℕ) : ℕ → Finset ℕ
  | 0 => Finset.range n
  | r + 1 => notPrefixMin sequence (level sequence n r)

section Level

variable {sequence : ℕ → T} {n i r : ℕ}

/-- The elements that are not prefix minima. -/
theorem mem_notPrefixMin {S : Finset ℕ} :
    i ∈ notPrefixMin sequence S ↔ i ∈ S ∧ ∃ j ∈ S, j < i ∧ sequence j < sequence i := by
  rw [notPrefixMin, Finset.mem_filter, le_minBefore]
  push Not
  rfl

/-- An index is left exactly if a subsequence that is long enough ends at it. -/
theorem mem_level : i ∈ level sequence n r ↔ i < n ∧ r + 1 ∈ lengthsAt sequence i := by
  induction r generalizing i with
  | zero =>
    rw [level, Finset.mem_range]
    exact (and_iff_left one_mem_lengthsAt).symm
  | succ r ih =>
    rw [level, mem_notPrefixMin, ih, succ_mem_lengthsAt]
    constructor
    · rintro ⟨⟨hi, _⟩, j, hj, hji, hvalue⟩
      exact ⟨hi, j, hji, hvalue, (ih.mp hj).2⟩
    · rintro ⟨hi, j, hji, hvalue, hlen⟩
      refine ⟨⟨hi, ?_⟩, j, ih.mpr ⟨hji.trans hi, hlen⟩, hji, hvalue⟩
      exact mem_lengthsAt_of_le (succ_mem_lengthsAt.mpr ⟨j, hji, hvalue, hlen⟩) (by omega)

/-- Round `r` removes the indices at which the longest subsequence has length `r + 1`. -/
theorem mem_level_sdiff :
    i ∈ level sequence n r \ level sequence n (r + 1) ↔ i < n ∧ IsGreatest (lengthsAt sequence i) (r + 1) := by
  rw [Finset.mem_sdiff, mem_level, mem_level]
  constructor
  · rintro ⟨⟨hi, hmem⟩, hnot⟩
    refine ⟨hi, hmem, fun k hk => ?_⟩
    by_contra hlt
    obtain ⟨d, rfl⟩ : ∃ d, k = d + 1 := ⟨k - 1, by omega⟩
    exact hnot ⟨hi, mem_lengthsAt_of_le hk (by omega)⟩
  · rintro ⟨hi, hmem, hmax⟩
    refine ⟨⟨hi, hmem⟩, fun hnext => ?_⟩
    have := hmax hnext.2
    omega

/-- Nothing is left exactly when the rounds have reached the greatest length. -/
theorem level_eq_empty {L : ℕ} (hL : IsGreatest (lengths sequence n) L) : level sequence n r = ∅ ↔ L ≤ r := by
  obtain ⟨⟨l, hinc, hlt, hlen⟩, hmax⟩ := hL
  constructor
  · intro hempty
    by_contra hlt'
    have hne : l ≠ [] := List.ne_nil_of_length_pos (by omega)
    have hmem : r + 1 ∈ lengthsAt sequence (l.getLast hne) := by
      refine mem_lengthsAt_of_le (k := L - 1) ⟨l, hinc, List.getLast?_eq_some_getLast hne, by omega⟩ (by omega)
    have hleft : l.getLast hne ∈ level sequence n r := mem_level.mpr ⟨hlt _ (List.getLast_mem hne), hmem⟩
    rw [hempty] at hleft
    exact Finset.notMem_empty _ hleft
  · intro hle
    refine Finset.eq_empty_of_forall_notMem fun i hi => ?_
    obtain ⟨hin, l', hinc', hlast, hlen'⟩ := mem_level.mp hi
    have hbound : ∀ j ∈ l', j < n := by
      obtain ⟨before, rfl⟩ := List.getLast?_eq_some_iff.mp hlast
      intro j hj
      rcases List.mem_append.mp hj with hj | hj
      · exact ((List.pairwise_append.mp hinc').2.2 j hj i List.mem_cons_self).1.trans hin
      · rwa [List.mem_singleton.mp hj]
    have := hmax ⟨l', hinc', hbound, hlen'⟩
    omega

end Level

section Rounds

variable (schedules : ℕ → ℕ → ℕ → Schedule) (sequence : ℕ → T) (n : ℕ)

/-- The map of all indices after a number of calls of `extract_prefix_min`. -/
def extractions : ℕ → IndexMap T
  | 0 => create sequence n true
  | r + 1 => extractPrefixMin (schedules r) sequence (extractions r)

/-- The tracked indices: those whose leaf flag is set. -/
def flagged (n : ℕ) (m : IndexMap T) : Finset ℕ := (Finset.range n).filter fun i => m.flag.bit 0 i = true

omit [LinearOrder T] [OrderTop T] in
/-- The set that the flags represent. -/
theorem flagged_eq {n : ℕ} {S : Finset ℕ} {m : IndexMap T} (h : Represents n m.flag S) : flagged n m = S := by
  ext i
  rw [flagged, Finset.mem_filter, Finset.mem_range, h.leaf]
  exact and_iff_right_of_imp fun hi => h.lt hi

/-- The map after some calls is exact for what is left. -/
theorem exact_extractions (r : ℕ) : Exact n sequence (level sequence n r)
    (extractions schedules sequence n r) := by
  induction r with
  | zero => exact exact_create sequence n true
  | succ r ih => exact extractPrefixMin_spec (schedules r) ih

/-- The calls of `extract_prefix_min` remove the layers of the longest increasing subsequences one after
the other, each call the prefix minima of what is tracked, and the map is empty after as many calls as
the longest one has elements. -/
theorem extractPrefixMin_layers (r : ℕ) :
    Tracks n sequence (flagged n (extractions schedules sequence n r)) (extractions schedules sequence n r) ∧
      (∀ i, i ∈ flagged n (extractions schedules sequence n r) \ flagged n
        (extractions schedules sequence n (r + 1)) ↔
        i < n ∧ IsGreatest (lengthsAt sequence i) (r + 1)) ∧
      (∀ i, i ∈ flagged n (extractions schedules sequence n (r + 1)) ↔
        i ∈ flagged n (extractions schedules sequence n r) ∧
          ¬sequence i ≤ ((flagged n (extractions schedules sequence n r)).filter fun j => j < i).inf sequence) ∧
      ∃ L, IsGreatest (lengths sequence n) L ∧ ((extractions schedules sequence n r).empty = true ↔ L ≤ r) := by
  have h := exact_extractions schedules sequence n r
  have hnext := exact_extractions schedules sequence n (r + 1)
  obtain ⟨L, hL⟩ := exists_isGreatest_lengths sequence n
  rw [flagged_eq h.flag, flagged_eq hnext.flag]
  refine ⟨h.tracks, fun i => mem_level_sdiff, fun i => ?_, L, hL, ?_⟩
  · rw [level, notPrefixMin, Finset.mem_filter]
    rfl
  · rw [h.empty_iff, level_eq_empty hL]

end Rounds

end IndexMap

end ToggleTree
