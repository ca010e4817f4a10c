import Mathlib.Algebra.BigOperators.Intervals
import Mathlib.Data.Nat.Count
import Mathlib.Tactic

/-!
# Ranks of a stable counting sort

A counting sort sends position `i` behind all positions with a smaller key and behind the earlier
positions with the same key. These ranks permute the positions, and the positions with one key
get an interval.

Nothing here refers to a particular program.
-/

namespace StableRank

variable (key : ℕ → ℕ) (n : ℕ)

/-- The number of positions with a key below `b`. -/
def first (b : ℕ) : ℕ := Nat.count (fun k => key k < b) n

/-- The rank of position `i`. -/
def rank (i : ℕ) : ℕ := first key n (key i) + Nat.count (fun k => key k = key i) i

variable {key n} {i j b c : ℕ}

/-- Positions with key `b` lie between the smaller and the larger keys. -/
theorem first_succ (b : ℕ) : first key n (b + 1) = first key n b + Nat.count (fun k => key k = b) n := by
  induction n with
  | zero => simp [first]
  | succ n ih =>
    rw [first, first, Nat.count_succ, Nat.count_succ, Nat.count_succ] at *
    by_cases h₁ : key n < b
    · rw [if_pos (by omega), if_pos h₁, if_neg (by omega)]
      omega
    · by_cases h₂ : key n = b
      · rw [if_pos (by omega), if_neg h₁, if_pos h₂]
        omega
      · rw [if_neg (by omega), if_neg h₁, if_neg h₂]
        omega

/-- No key is below 0. -/
@[simp] theorem first_zero : first key n 0 = 0 := by
  rw [first, Nat.count_eq_card_filter_range]
  simp

/-- The intervals of the keys follow each other. -/
theorem first_eq_sum (b : ℕ) : first key n b = ∑ c ∈ Finset.range b, Nat.count (fun k => key k = c) n := by
  induction b with
  | zero => rw [first_zero, Finset.sum_range_zero]
  | succ b ih => rw [first_succ, ih, Finset.sum_range_succ]

/-- More keys are below a greater bound. -/
theorem first_mono (h : b ≤ c) : first key n b ≤ first key n c := by
  induction c, h using Nat.le_induction with
  | base => exact le_rfl
  | succ c _ ih => exact ih.trans (first_succ c ▸ Nat.le_add_right _ _)

/-- Beyond all keys lie all positions. -/
theorem first_eq_of_lt (h : ∀ i < n, key i < b) : first key n b = n := by
  rw [first, Nat.count_iff_forall]
  exact fun i hi => h i hi

/-- There are at most as many keys below a bound as keys. -/
theorem first_le (b : ℕ) : first key n b ≤ n := Nat.count_le _

/-- The rank is at least the number of lesser keys. -/
theorem first_le_rank : first key n (key i) ≤ rank key n i := Nat.le_add_right _ _

/-- The rank is less than the number of keys that are not greater. -/
theorem rank_lt_first (hi : i < n) : rank key n i < first key n (key i + 1) := by
  rw [first_succ, rank]
  exact Nat.add_lt_add_left (Nat.count_strict_mono (p := fun k => key k = key i) rfl hi) _

/-- The ranks are in range. -/
theorem rank_lt (hi : i < n) : rank key n i < n := (rank_lt_first hi).trans_le (first_le _)

/-- Different positions have different ranks. -/
theorem rank_injOn (hi : i < n) (hj : j < n) (h : rank key n i = rank key n j) : i = j := by
  have hkey : key i = key j := by
    by_contra hne
    rcases Nat.lt_or_gt_of_ne hne with hlt | hlt
    · have h₁ : rank key n i < first key n (key i + 1) := rank_lt_first hi
      have h₂ : first key n (key i + 1) ≤ first key n (key j) := first_mono hlt
      have h₃ : first key n (key j) ≤ rank key n j := first_le_rank
      omega
    · have h₁ : rank key n j < first key n (key j + 1) := rank_lt_first hj
      have h₂ : first key n (key j + 1) ≤ first key n (key i) := first_mono hlt
      have h₃ : first key n (key i) ≤ rank key n i := first_le_rank
      omega
  rw [rank, rank, hkey, Nat.add_left_cancel_iff] at h
  exact Nat.count_injective (p := fun k => key k = key j) hkey rfl h

/-- Every position is the rank of some position. -/
theorem exists_rank {p : ℕ} (hp : p < n) : ∃ i < n, rank key n i = p := by
  have hmaps : Set.MapsTo (rank key n) (Finset.range n) (Finset.range n) := fun i hi =>
    Finset.mem_coe.mpr (Finset.mem_range.mpr (rank_lt (Finset.mem_range.mp (Finset.mem_coe.mp hi))))
  have hinj : Set.InjOn (rank key n) (Finset.range n) := fun i hi j hj h =>
    rank_injOn (Finset.mem_range.mp (Finset.mem_coe.mp hi)) (Finset.mem_range.mp (Finset.mem_coe.mp hj)) h
  obtain ⟨i, hi, h⟩ :=
    Finset.surjOn_of_injOn_of_card_le _ hmaps hinj le_rfl (Finset.mem_coe.mpr (Finset.mem_range.mpr hp))
  exact ⟨i, Finset.mem_range.mp (Finset.mem_coe.mp hi), h⟩

/-- The interval of a key holds the ranks of the positions with that key. -/
theorem key_of_rank (hi : i < n) (h₁ : first key n b ≤ rank key n i) (h₂ : rank key n i < first key n (b + 1)) :
    key i = b := by
  by_contra hne
  rcases Nat.lt_or_gt_of_ne hne with hlt | hlt
  · have h₃ : rank key n i < first key n (key i + 1) := rank_lt_first hi
    have h₄ : first key n (key i + 1) ≤ first key n b := first_mono hlt
    omega
  · have h₃ : first key n (b + 1) ≤ first key n (key i) := first_mono hlt
    have h₄ : first key n (key i) ≤ rank key n i := first_le_rank
    omega

/-- The intervals of different keys are disjoint. -/
theorem interval_disjoint {p : ℕ} (hne : b ≠ c) (hp : first key n b ≤ p) (hp' : p < first key n (b + 1)) :
    p < first key n c ∨ first key n (c + 1) ≤ p := by
  rcases Nat.lt_or_gt_of_ne hne with hlt | hlt
  · exact Or.inl (hp'.trans_le (first_mono hlt))
  · exact Or.inr ((first_mono hlt).trans hp)

/-- The ranks are a permutation of the positions. -/
theorem perm_rank : ((List.range n).map (rank key n)).Perm (List.range n) := by
  have hnodup : ((List.range n).map (rank key n)).Nodup :=
    List.Nodup.map_on (fun i hi j hj h => rank_injOn (List.mem_range.mp hi) (List.mem_range.mp hj) h)
      List.nodup_range
  refine (List.perm_ext_iff_of_nodup hnodup List.nodup_range).mpr fun p => ?_
  rw [List.mem_map, List.mem_range]
  constructor
  · rintro ⟨i, hi, rfl⟩
    exact rank_lt (List.mem_range.mp hi)
  · intro hp
    obtain ⟨i, hi, h⟩ : ∃ i < n, rank key n i = p := exists_rank hp
    exact ⟨i, List.mem_range.mpr hi, h⟩

/-- Moving every element to its rank permutes the elements. -/
theorem map_perm {α : Type} {f g : ℕ → α} (h : ∀ i < n, g (rank key n i) = f i) :
    ((List.range n).map g).Perm ((List.range n).map f) := by
  have hmap : (List.range n).map f = ((List.range n).map (rank key n)).map g := by
    rw [List.map_map]
    exact List.map_congr_left fun i hi => (h i (List.mem_range.mp hi)).symm
  rw [hmap]
  exact (perm_rank.map g).symm

/-- The positions with one key before a bound, counted block by block. -/
theorem sum_count (p : ℕ → Prop) [DecidablePred p] {t : ℕ → ℕ} (h0 : t 0 = 0)
    (hmono : ∀ j, t j ≤ t (j + 1)) (k : ℕ) :
    ∑ j ∈ Finset.range k, (Nat.count p (t (j + 1)) - Nat.count p (t j)) = Nat.count p (t k) := by
  rw [Finset.sum_range_tsub (f := fun j => Nat.count p (t j))
    (monotone_nat_of_le_succ fun j => Nat.count_monotone p (hmono j)),
    h0, Nat.count_zero, Nat.sub_zero]

/-! ### Runs of equal keys -/

/-- A part in which all positions count. -/
theorem count_of_all {p : ℕ → Prop} [DecidablePred p] {a c : ℕ} (hac : a ≤ c) (h : ∀ i, a ≤ i → i < c → p i) :
    Nat.count p c = Nat.count p a + (c - a) := by
  induction c, hac using Nat.le_induction with
  | base => rw [Nat.sub_self, Nat.add_zero]
  | succ c hac ih =>
    have hc : p c := h c hac (Nat.lt_succ_self c)
    rw [Nat.count_succ, if_pos hc, ih fun i hi hi' => h i hi (by omega)]
    omega

/-- A part in which no position counts. -/
theorem count_of_none {p : ℕ → Prop} [DecidablePred p] {a c : ℕ} (hac : a ≤ c) (h : ∀ i, a ≤ i → i < c → ¬p i) :
    Nat.count p c = Nat.count p a := by
  induction c, hac using Nat.le_induction with
  | base => rfl
  | succ c hac ih =>
    rw [Nat.count_succ, if_neg (h c hac (Nat.lt_succ_self c)), ih fun i hi hi' => h i hi (by omega), Nat.add_zero]

/-- Where the keys below `b` end among the positions from `s` up to `e`, if the keys are ordered there. -/
def split (key : ℕ → ℕ) (s e b : ℕ) : ℕ := s + (first key e b - first key s b)

variable {s e k : ℕ}

/-- A longer part has more keys below a bound. -/
theorem first_mono_bound (hse : s ≤ e) (b : ℕ) : first key s b ≤ first key e b := Nat.count_monotone _ hse

/-- The part of the keys below 0 is empty. -/
@[simp] theorem split_zero : split key s e 0 = s := by
  rw [split, first_zero, first_zero, Nat.sub_zero, Nat.add_zero]

/-- The part of the keys up to a bound. -/
theorem split_succ (hse : s ≤ e) (b : ℕ) : split key s e (b + 1) =
    split key s e b + (Nat.count (fun k => key k = b) e - Nat.count (fun k => key k = b) s) := by
  have h₁ : first key s b ≤ first key e b := first_mono_bound hse b
  have h₂ : Nat.count (fun k => key k = b) s ≤ Nat.count (fun k => key k = b) e := Nat.count_monotone _ hse
  rw [split, split, first_succ, first_succ]
  omega

/-- The part of the keys below a bound that none reaches is the whole. -/
theorem split_all (hse : s ≤ e) (h : ∀ i < e, key i < b) : split key s e b = e := by
  rw [split, first_eq_of_lt h, first_eq_of_lt fun i hi => h i (by omega)]
  omega

/-- Each further position adds at most one key. -/
theorem first_le_add (hsk : s ≤ k) (b : ℕ) : first key k b ≤ first key s b + (k - s) := by
  obtain ⟨d, rfl⟩ := Nat.exists_eq_add_of_le hsk
  rw [first, Nat.count_add, first, Nat.add_sub_cancel_left]
  exact Nat.add_le_add_left (Nat.count_le _) _

/-- The bound of a part is inside the range. -/
theorem split_le (hse : s ≤ e) (b : ℕ) : split key s e b ≤ e := by
  have : first key e b ≤ first key s b + (e - s) := first_le_add hse b
  rw [split]
  omega

/-- In a sorted range the positions before the bound of a part are those with lesser keys. -/
theorem lt_split_iff (hmono : ∀ i j, s ≤ i → i ≤ j → j < e → key i ≤ key j) (hk : s ≤ k) (hk' : k < e) :
    k < split key s e b ↔ key k < b := by
  constructor
  · contrapose!
    intro hb
    have hnone : first key e b = first key k b := count_of_none hk'.le fun i hi hi' => by
      have := hmono k i hk hi hi'
      omega
    have hle : first key k b ≤ first key s b + (k - s) := first_le_add hk b
    rw [split, hnone]
    omega
  · intro hb
    have hall : first key (k + 1) b = first key s b + (k + 1 - s) := count_of_all (by omega) fun i hi hi' => by
      have := hmono i k hi (by omega) hk'
      omega
    have hle : first key (k + 1) b ≤ first key e b := first_mono_bound hk' b
    rw [split]
    omega

/-- The positions of one key follow each other. -/
theorem count_split_add {i : ℕ} (hse : s ≤ e) (hmono : ∀ i j, s ≤ i → i ≤ j → j < e → key i ≤ key j)
    (hi : split key s e b + i ≤ split key s e (b + 1)) :
    Nat.count (fun k => key k = b) (split key s e b + i) = Nat.count (fun k => key k = b) s + i := by
  have he : split key s e (b + 1) ≤ e := split_le hse (b + 1)
  have hs : s ≤ split key s e b := Nat.le_add_right _ _
  have hnone : Nat.count (fun k => key k = b) (split key s e b) = Nat.count (fun k => key k = b) s :=
    count_of_none hs fun k hk hk' => by
      have := (lt_split_iff hmono hk (by omega)).mp hk'
      omega
  rw [count_of_all (Nat.le_add_right _ i) fun k hk hk' => ?_, hnone, Nat.add_sub_cancel_left]
  have h₁ : k < split key s e (b + 1) ↔ key k < b + 1 := lt_split_iff hmono (hs.trans hk) (by omega)
  have h₂ : k < split key s e b ↔ key k < b := lt_split_iff hmono (hs.trans hk) (by omega)
  have h₃ := h₁.mp (by omega)
  have h₄ : ¬key k < b := fun h => absurd (h₂.mpr h) (not_lt.mpr hk)
  omega

end StableRank
