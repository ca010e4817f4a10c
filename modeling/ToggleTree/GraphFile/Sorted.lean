import Mathlib.Data.BitVec
import ToggleTree.GraphFile.Load

/-!
# Sorted neighbours

Every descent of sorted lists is a descent between the lists of two vertices, so the two counts are
the same and nothing is sorted again. Sorting permutes the list of every vertex.
-/

namespace ToggleTree

open Checked Primitives

namespace GraphFile

/-- An array of offsets whose values are given by `o`. -/
structure IsOffsets (offsets : Array ℕ) (n m : ℕ) (o : ℕ → ℕ) : Prop where
  contents : Contents offsets (n + 1) o
  zero : o 0 = 0
  le : ∀ u < n, o u ≤ o (u + 1)
  last : o n = m

namespace IsOffsets

variable {offsets : Array ℕ} {n m u v i : ℕ} {o : ℕ → ℕ} (h : IsOffsets offsets n m o)
include h

/-- The offsets increase. -/
theorem mono (huv : u ≤ v) (hv : v ≤ n) : o u ≤ o v := by
  induction v, huv using Nat.le_induction with
  | base => exact le_rfl
  | succ v _ ih => exact (ih (by omega)).trans (h.le v (by omega))

/-- No offset is greater than the number of edges. -/
theorem le_last (hu : u ≤ n) : o u ≤ m := h.last ▸ h.mono hu le_rfl

/-- Every position belongs to a vertex. -/
theorem exists_slot (hi : i < m) : ∃ u < n, o u ≤ i ∧ i < o (u + 1) := by
  have hfind : ∀ t ≤ n, i < o t → ∃ u < n, o u ≤ i ∧ i < o (u + 1) := by
    intro t
    induction t with
    | zero => intro _ hlt; rw [h.zero] at hlt; omega
    | succ t ih =>
      intro ht hlt
      by_cases hle : o t ≤ i
      · exact ⟨t, by omega, hle, hlt⟩
      · exact ih (by omega) (by omega)
  exact hfind n le_rfl (h.last ▸ hi)

/-- A slot belongs to one vertex. -/
theorem slot_unique (hu : u < n) (hv : v < n) (hui : o u ≤ i) (hiu : i < o (u + 1)) (hvi : o v ≤ i)
    (hiv : i < o (v + 1)) :
    u = v := by
  by_contra hne
  rcases Nat.lt_or_gt_of_ne hne with hlt | hlt
  · have := h.mono (show u + 1 ≤ v by omega) hv.le
    omega
  · have := h.mono (show v + 1 ≤ u by omega) hu.le
    omega

/-- A sum over all positions, vertex by vertex. -/
theorem sum_slots {M : Type} [AddCommMonoid M] (g : ℕ → M) {t : ℕ} (ht : t ≤ n) :
    ∑ s ∈ Finset.range t, ∑ i ∈ Finset.Ico (o s) (o (s + 1)), g i = ∑ i ∈ Finset.Ico 0 (o t), g i := by
  induction t with
  | zero => rw [Finset.sum_range_zero, h.zero, Finset.Ico_self, Finset.sum_empty]
  | succ t ih =>
    rw [Finset.sum_range_succ, ih (by omega), Finset.sum_Ico_consecutive g (Nat.zero_le _) (h.le t (by omega))]

end IsOffsets

section SharedSum

variable {M : Type} [AddCommMonoid M] {g : ℕ → M} {start stop : ℕ}

/-- Going round a range several times. -/
theorem sum_mod (h : ℕ → M) (blocks copies : ℕ) :
    ∑ k ∈ Finset.range (blocks * copies), h (k % blocks) = copies • ∑ b ∈ Finset.range blocks, h b := by
  induction copies with
  | zero => rw [Nat.mul_zero, Finset.sum_range_zero, zero_smul]
  | succ copies ih =>
    rw [Nat.mul_succ, Finset.sum_range_add, ih, succ_nsmul]
    refine congrArg _ (Finset.sum_congr rfl fun b hb => ?_)
    rw [Nat.mul_add_mod, Nat.mod_eq_of_lt (Finset.mem_range.mp hb)]

/-- A sum over a range, block by block. -/
theorem sum_blocks (hle : start ≤ stop) (t : ℕ) :
    ∑ b ∈ Finset.range t, ∑ i ∈ Finset.Ico (start + b * 4096) (min (start + b * 4096 + 4096) stop), g i =
      ∑ i ∈ Finset.Ico start (min (start + t * 4096) stop), g i := by
  induction t with
  | zero => rw [Finset.sum_range_zero, Nat.zero_mul, Nat.add_zero, min_eq_left hle, Finset.Ico_self,
    Finset.sum_empty]
  | succ t ih =>
    rw [Finset.sum_range_succ, ih, Nat.succ_mul, ← Nat.add_assoc]
    rcases Nat.lt_or_ge stop (start + t * 4096) with hlt | hge
    · rw [min_eq_right hlt.le, min_eq_right (by omega), Finset.Ico_eq_empty_of_le hlt.le,
        Finset.sum_empty, add_zero]
    · rw [min_eq_left hge]
      exact Finset.sum_Ico_consecutive g (by omega) (by omega)

/-- One round counts every position 16 times. -/
theorem sharedRound_eq {f : ℕ → Option Word} {g : ℕ → Word} (hle : start ≤ stop)
    (hf : ∀ i < stop, f i = some (g i)) :
    reduce (· + ·) 0 1 0 ((stop - start + 4096 - 1) / 4096 * 16) (fun k =>
      reduce (· + ·) 0 1024 (start + k % ((stop - start + 4096 - 1) / 4096) * 4096)
        (min (start + k % ((stop - start + 4096 - 1) / 4096) * 4096 + 4096) stop) f) =
      some (16 • ∑ i ∈ Finset.Ico start stop, g i) := by
  have hcover : stop ≤ start + (stop - start + 4096 - 1) / 4096 * 4096 := by omega
  have hinside : ∀ b < (stop - start + 4096 - 1) / 4096, start + b * 4096 < stop := by
    intro b hb
    omega
  generalize (stop - start + 4096 - 1) / 4096 = numBlocks at *
  have hblock : ∀ k, 0 ≤ k → k < numBlocks * 16 →
      reduce (· + ·) 0 1024 (start + k % numBlocks * 4096) (min (start + k % numBlocks * 4096 + 4096) stop) f =
        some ((fun b => ∑ i ∈ Finset.Ico (start + b * 4096) (min (start + b * 4096 + 4096) stop), g i)
          (k % numBlocks)) := by
    intro k _ hk
    have hpositive : 0 < numBlocks := by
      rcases Nat.eq_zero_or_pos numBlocks with rfl | hpos
      · omega
      · exact hpos
    have hlt := hinside (k % numBlocks) (Nat.mod_lt k hpositive)
    exact reduce_add 1024 (by omega) fun i _ hi => hf i (by omega)
  rw [reduce_add 1 (Nat.zero_le _) hblock, ← Finset.range_eq_Ico]
  have hrounds :=
    sum_mod (fun b => ∑ i ∈ Finset.Ico (start + b * 4096) (min (start + b * 4096 + 4096) stop), g i) numBlocks 16
  rw [sum_blocks hle, min_eq_right hcover] at hrounds
  exact congrArg some hrounds

/-- The workers of the test add all the terms 16 times. -/
theorem sharedSum_eq (R : Runtime) {n : ℕ} {f : ℕ → Option Word} {g : ℕ → Word} (hf : ∀ i < n, f i = some (g i))
    (start : ℕ) (total : Word) :
    sharedSum R n f start total = some (total + 16 • ∑ i ∈ Finset.Ico start n, g i) := by
  induction hn : n - start using Nat.strong_induction_on generalizing start total with
  | _ rest ih =>
    have hworkers := R.numWorkers_pos
    rw [sharedSum]
    split
    · have hround := sharedRound_eq (show start ≤ min (start + 4096 * R.numWorkers) n by omega)
        fun i (hi : i < min (start + 4096 * R.numWorkers) n) => hf i (by omega)
      refine (bind_eq_of_eq hround _).trans ?_
      rw [ih _ (by omega) (start + 4096 * R.numWorkers) _ rfl, add_assoc, ← smul_add]
      rcases Nat.lt_or_ge n (start + 4096 * R.numWorkers) with hlt | hge
      · rw [min_eq_right hlt.le, Finset.Ico_eq_empty_of_le hlt.le, Finset.sum_empty, add_zero]
      · rw [min_eq_left hge, Finset.sum_Ico_consecutive g (by omega) hge]
    · rw [Finset.Ico_eq_empty_of_le (by omega), Finset.sum_empty, smul_zero, add_zero]

end SharedSum

section Descents

variable {offsets edges : Array ℕ} {n m i s : ℕ} {o f : ℕ → ℕ}

/-- The value of `descent`. -/
def descentOf (f : ℕ → ℕ) (i : ℕ) : Word := if 0 < i ∧ lo32 (f (i - 1)) > lo32 (f i) then 1 else 0

/-- The value of `boundaryDescent`. -/
def boundaryDescentOf (o f : ℕ → ℕ) (s : ℕ) : Word := if o s < o (s + 1) then descentOf f (o s) else 0

/-- The descent at a slot. -/
theorem descent_eq (hedges : Contents edges m f) (hi : i < m) : descent edges i = some (descentOf f i) := by
  unfold descent descentOf
  by_cases hpositive : 0 < i
  · rw [if_pos hpositive, hedges.get (i - 1) (by omega), hedges.get i hi]
    by_cases hlt : lo32 (f (i - 1)) > lo32 (f i)
    · rw [if_pos ⟨hpositive, hlt⟩]
      exact congrArg some (if_pos hlt)
    · rw [if_neg fun h => hlt h.2]
      exact congrArg some (if_neg hlt)
  · rw [if_neg hpositive, if_neg fun h => hpositive h.1]

/-- The descent at the start of a list. -/
theorem boundaryDescent_eq (hoffsets : IsOffsets offsets n m o) (hedges : Contents edges m f) (hs : s < n) :
    boundaryDescent offsets edges s = some (boundaryDescentOf o f s) := by
  have hle := hoffsets.le_last (u := s + 1) (by omega)
  unfold boundaryDescent boundaryDescentOf
  refine (bind_eq_of_eq (hoffsets.contents.get s (by omega)) _).trans ?_
  by_cases hpositive : 0 < o s
  · rw [if_pos hpositive]
    refine (bind_eq_of_eq (hoffsets.contents.get (s + 1) (by omega)) _).trans ?_
    by_cases hlt : o s < o (s + 1)
    · rw [if_pos hlt, if_pos hlt]
      exact descent_eq hedges (by omega)
    · rw [if_neg hlt, if_neg hlt]
  · have hzero : descentOf f (o s) = 0 := if_neg fun h => hpositive h.1
    rw [if_neg hpositive, hzero, ite_self]

/-- `is_sorted` compares the two counts. -/
theorem isSorted_eq (R : Runtime) (hoffsets : IsOffsets offsets n m o) (hedges : Contents edges m f) :
    isSorted R offsets edges n = some (16 • ∑ i ∈ Finset.Ico 0 m, descentOf f i ==
      16 • ∑ s ∈ Finset.Ico 0 n, boundaryDescentOf o f s) := by
  have hall := sharedSum_eq R (fun i (hi : i < m) => descent_eq hedges hi) 0 0
  have hboundary := sharedSum_eq R (fun s (hs : s < n) => boundaryDescent_eq hoffsets hedges hs) 0 0
  rw [zero_add] at hall hboundary
  have hlast : offsets[n]? = some m := hoffsets.last ▸ hoffsets.contents.get n (by omega)
  exact (bind_eq_of_eq hlast _).trans ((bind_eq_of_eq hall _).trans (bind_eq_of_eq hboundary _))

/-- The neighbours of every vertex are sorted. -/
def SortedLists (n : ℕ) (o f : ℕ → ℕ) : Prop :=
  ∀ u < n, ∀ i, o u < i → i < o (u + 1) → lo32 (f (i - 1)) ≤ lo32 (f i)

/-- The descents, counted without wrapping around. -/
def descentCount (f : ℕ → ℕ) (i : ℕ) : ℕ := if 0 < i ∧ lo32 (f (i - 1)) > lo32 (f i) then 1 else 0

/-- The descents between two lists. -/
def boundaryDescentCount (o f : ℕ → ℕ) (s : ℕ) : ℕ := if o s < o (s + 1) then descentCount f (o s) else 0

/-- The number of descents at a slot is the word that is added. -/
@[simp] theorem cast_descentCount : (descentCount f i : Word) = descentOf f i := by
  unfold descentCount descentOf
  split <;> simp

/-- The number of descents at the start of a list is the word that is added. -/
@[simp] theorem cast_boundaryDescentCount : (boundaryDescentCount o f s : Word) = boundaryDescentOf o f s := by
  unfold boundaryDescentCount boundaryDescentOf
  split
  · exact cast_descentCount
  · rfl

/-- There are at most as many descents as edges. -/
theorem sum_descentCount_le : ∑ i ∈ Finset.Ico 0 m, descentCount f i ≤ m := by
  have hone : ∀ i ∈ Finset.Ico 0 m, descentCount f i ≤ 1 := by
    intro i _
    unfold descentCount
    split <;> omega
  have hle := Finset.sum_le_card_nsmul _ _ 1 hone
  rwa [Nat.card_Ico, smul_eq_mul, Nat.mul_one, Nat.sub_zero] at hle

/-- Every descent is between two lists or inside one. -/
theorem sum_descentCount (hoffsets : IsOffsets offsets n m o) :
    ∑ i ∈ Finset.Ico 0 m, descentCount f i = ∑ s ∈ Finset.Ico 0 n, boundaryDescentCount o f s +
      ∑ s ∈ Finset.Ico 0 n, ∑ i ∈ Finset.Ico (o s + 1) (o (s + 1)), descentCount f i := by
  rw [← hoffsets.last, ← hoffsets.sum_slots _ le_rfl, Finset.range_eq_Ico, ← Finset.sum_add_distrib]
  refine Finset.sum_congr rfl fun s _ => ?_
  rw [boundaryDescentCount]
  split
  · rename_i hlt
    exact Finset.sum_eq_sum_Ico_succ_bot hlt _
  · rw [Finset.Ico_eq_empty_of_le (by omega), Finset.Ico_eq_empty_of_le (by omega),
      Finset.sum_empty, Nat.add_zero]

/-- Lists are sorted if no descent is inside one. -/
theorem sortedLists_iff : SortedLists n o f ↔
    ∑ s ∈ Finset.Ico 0 n, ∑ i ∈ Finset.Ico (o s + 1) (o (s + 1)), descentCount f i = 0 := by
  rw [Finset.sum_eq_zero_iff]
  constructor
  · intro hsorted s hs
    rw [Finset.sum_eq_zero_iff]
    intro i hi
    rw [Finset.mem_Ico] at hs hi
    exact if_neg fun h => absurd h.2 (Nat.not_lt.mpr (hsorted s hs.2 i (by omega) hi.2))
  · intro hzero u hu i hi hi'
    have hnone := Finset.sum_eq_zero_iff.mp (hzero u (Finset.mem_Ico.mpr ⟨Nat.zero_le u, hu⟩)) i
      (Finset.mem_Ico.mpr ⟨hi, hi'⟩)
    by_contra hlt
    rw [descentCount, if_pos ⟨by omega, Nat.lt_of_not_le hlt⟩] at hnone
    exact one_ne_zero hnone

/-- Sixteen times a count does not wrap around. -/
theorem nsmul_count_inj {a b : ℕ} (ha : a < 2 ^ 59) (hb : b < 2 ^ 59) :
    16 • (a : Word) = 16 • (b : Word) ↔ a = b := by
  refine ⟨fun heq => ?_, fun heq => heq ▸ rfl⟩
  have heq : ((16 * a : ℕ) : Word) = ((16 * b : ℕ) : Word) := by
    simpa only [nsmul_eq_mul, Nat.cast_mul] using heq
  have hnat := congrArg BitVec.toNat heq
  rw [BitVec.natCast_eq_ofNat, BitVec.natCast_eq_ofNat, BitVec.toNat_ofNat, BitVec.toNat_ofNat] at hnat
  omega

/-- Without wrapping around, the two counts are the same exactly for sorted lists. -/
theorem returns_isSorted (R : Runtime) (hm : m < 2 ^ 59) (hoffsets : IsOffsets offsets n m o)
    (hedges : Contents edges m f) :
    Returns (fun sorted => sorted = true ↔ SortedLists n o f) (isSorted R offsets edges n) := by
  refine Returns.of_eq (isSorted_eq R hoffsets hedges) ?_
  have hsum := sum_descentCount (f := f) hoffsets
  have hle : ∑ i ∈ Finset.Ico 0 m, descentCount f i ≤ m := sum_descentCount_le
  have hall : ∑ i ∈ Finset.Ico 0 m, descentOf f i = ((∑ i ∈ Finset.Ico 0 m, descentCount f i : ℕ) : Word) := by
    rw [Nat.cast_sum]
    exact Finset.sum_congr rfl fun i _ => cast_descentCount.symm
  have hboundary : ∑ s ∈ Finset.Ico 0 n, boundaryDescentOf o f s =
      ((∑ s ∈ Finset.Ico 0 n, boundaryDescentCount o f s : ℕ) : Word) := by
    rw [Nat.cast_sum]
    exact Finset.sum_congr rfl fun s _ => cast_boundaryDescentCount.symm
  rw [beq_iff_eq, hall, hboundary, nsmul_count_inj (by omega) (by omega), sortedLists_iff]
  omega

/-- Sorted lists have no descents but those between two lists. -/
theorem isSorted_of_sorted (R : Runtime) (hoffsets : IsOffsets offsets n m o) (hedges : Contents edges m f)
    (hsorted : SortedLists n o f) : isSorted R offsets edges n = some true := by
  have hsum := sum_descentCount (f := f) hoffsets
  rw [sortedLists_iff.mp hsorted, Nat.add_zero] at hsum
  have hcast : ∑ i ∈ Finset.Ico 0 m, descentOf f i = ∑ s ∈ Finset.Ico 0 n, boundaryDescentOf o f s := by
    have hcast := congrArg (Nat.cast : ℕ → Word) hsum
    simpa only [Nat.cast_sum, cast_descentCount, cast_boundaryDescentCount] using hcast
  rw [isSorted_eq R hoffsets hedges, hcast, beq_self_eq_true]

/-- Sorted lists are left as they are. -/
theorem makeSorted_of_sorted (R : Runtime) (weighted : Bool) {fuel : ℕ} (hfuel : 1 ≤ fuel)
    (hoffsets : IsOffsets offsets n m o) (hedges : Contents edges m f) (hsorted : SortedLists n o f) :
    makeSorted R weighted fuel offsets edges n = some edges := by
  obtain ⟨fuel, rfl⟩ := Nat.exists_eq_add_of_le' hfuel
  exact bind_eq_of_eq (isSorted_of_sorted R hoffsets hedges hsorted) _

end Descents

section MakeSorted

variable {offsets edges : Array ℕ} {n m : ℕ} {o f : ℕ → ℕ}

/-- The order of the edges is a strict weak one. -/
theorem edgeLess_strict (weighted : Bool) : StrictWeakOrder (edgeLess weighted) := by
  cases weighted <;> refine ⟨fun x => ?_, fun x y z => ?_, fun x y z => ?_⟩ <;>
    simp only [edgeLess, if_true, Bool.false_eq_true, if_false, decide_eq_true_eq,
      decide_eq_false_iff_not] <;> omega

/-- Unweighted edges are 32-bit numbers. -/
def EdgesFit (weighted : Bool) (m : ℕ) (f : ℕ → ℕ) : Prop := weighted = false → ∀ i < m, f i < 2 ^ 32

/-- The order of the edges is that of their targets. -/
theorem lo32_le_of_not_edgeLess {weighted : Bool} {x y : ℕ} (hy : weighted = false → y < 2 ^ 32)
    (hxy : edgeLess weighted y x = false) : lo32 x ≤ lo32 y := by
  cases weighted with
  | true => simpa [edgeLess] using hxy
  | false =>
    have hle : x ≤ y := by simpa [edgeLess] using hxy
    have hlt := hy rfl
    rw [lo32, lo32, Nat.mod_eq_of_lt hlt, Nat.mod_eq_of_lt (by omega)]
    exact hle

/-- The lists are permuted. -/
def PermutedLists (n : ℕ) (o f h : ℕ → ℕ) : Prop :=
  ∀ u < n, (segment h (o u) (o (u + 1))).Perm (segment f (o u) (o (u + 1)))

/-- Sorting the list of one vertex leaves the lists of the others alone. -/
theorem segment_sortedOn_of_ne (hoffsets : IsOffsets offsets n m o) (sort : List ℕ → List ℕ) {u v : ℕ}
    (hu : u < n) (hv : v < n)
    (hne : v ≠ u) : segment (sortedOn sort f (o u) (o (u + 1))) (o v) (o (v + 1)) = segment f (o v)
    (o (v + 1)) := by
  refine List.map_congr_left fun p hp => sortedOn_outside ?_
  rw [List.mem_range'_1] at hp
  by_contra hinside
  exact hne (hoffsets.slot_unique hv hu hp.1 (by omega) (by omega) (by omega))

/-- Permuted lists have edges that fit. -/
theorem PermutedLists.fit {weighted : Bool} {h : ℕ → ℕ} {u i : ℕ} (hperm : PermutedLists n o f h)
    (hfit : EdgesFit weighted m f)
    (hoffsets : IsOffsets offsets n m o) (hu : u < n) (hi : o u ≤ i) (hi' : i < o (u + 1))
    (hweighted : weighted = false) :
    h i < 2 ^ 32 := by
  have hmem : h i ∈ segment h (o u) (o (u + 1)) := List.mem_map_of_mem (List.mem_range'_1.mpr ⟨hi, by omega⟩)
  obtain ⟨j, hj, heq⟩ := List.mem_map.mp ((hperm u hu).mem_iff.mp hmem)
  have hlast := hoffsets.le_last (u := u + 1) (by omega)
  rw [List.mem_range'_1] at hj
  rw [← heq]
  exact hfit hweighted j (by omega)

/-- A list in the order of the edges is sorted by target. -/
theorem lo32_le_of_sorted {weighted : Bool} {h : ℕ → ℕ} {start stop i : ℕ}
    (hsorted : Sorted (edgeLess weighted) (segment h start stop))
    (hfit : weighted = false → h i < 2 ^ 32) (hi : start < i) (hi' : i < stop) :
    lo32 (h (i - 1)) ≤ lo32 (h i) := by
  have hpair := List.pairwise_iff_getElem.mp (List.pairwise_map.mp hsorted) (i - 1 - start) (i - start)
    (by rw [List.length_range']; omega) (by rw [List.length_range']; omega) (by omega)
  rw [List.getElem_range', List.getElem_range', show start + 1 * (i - 1 - start) = i - 1 by omega,
    show start + 1 * (i - start) = i by omega] at hpair
  exact lo32_le_of_not_edgeLess hfit hpair

/-- Sorting every list. -/
theorem returns_sortLists (R : Runtime) (weighted : Bool) (schedule : Schedule)
    (hoffsets : IsOffsets offsets n m o) (hedges : Contents edges m f) (hfit : EdgesFit weighted m f) :
    Returns (fun edges' => ∃ h, Contents edges' m h ∧ PermutedLists n o f h ∧ SortedLists n o h)
      (parallelLoop schedule n edges fun u edges => do
        let first ← offsets[u]?
        let last ← offsets[u + 1]?
        sortRange (R.sort (edgeLess weighted)) edges first last) := by
  have hsort := R.sorts _ (edgeLess_strict weighted)
  refine (Returns.parallelLoop (I := fun done edges' => ∃ h, Contents edges' m h ∧ PermutedLists n o f h ∧
    ∀ u ∈ done, u < n → Sorted (edgeLess weighted) (segment h (o u) (o (u + 1)))) ?_ ?_).mono ?_
  · exact ⟨f, hedges, fun u _ => List.Perm.refl _, fun u hu => absurd hu (Finset.notMem_empty u)⟩
  · rintro done u edges' hu hnot ⟨h, hh, hperm, hdone⟩
    refine Returns.bind_eq (hoffsets.contents.get u (by omega))
      (Returns.bind_eq (hoffsets.contents.get (u + 1) (by omega)) ?_)
    obtain ⟨edges'', heq, hh'⟩ := hh.sortRange hsort (hoffsets.le u hu) (hoffsets.le_last (by omega))
    refine Returns.of_eq heq ⟨_, hh', fun v hv => ?_, fun v hmem hv => ?_⟩
    · by_cases hvu : v = u
      · subst hvu
        rw [segment_sortedOn hsort]
        exact (hsort.perm _).trans (hperm v hv)
      · rw [segment_sortedOn_of_ne hoffsets _ hu hv hvu]
        exact hperm v hv
    · by_cases hvu : v = u
      · subst hvu
        rw [segment_sortedOn hsort]
        exact hsort.sorted _
      · rw [segment_sortedOn_of_ne hoffsets _ hu hv hvu]
        exact hdone v ((Finset.mem_insert.mp hmem).resolve_left hvu) hv
  · rintro edges' ⟨h, hh, hperm, hdone⟩
    refine ⟨h, hh, hperm, fun u hu i hi hi' => ?_⟩
    exact lo32_le_of_sorted (hdone u (Finset.mem_range.mpr hu) hu) (hperm.fit hfit hoffsets hu hi.le hi') hi hi'

/-- `make_sorted` permutes the lists, and sorts them unless the count of the descents wraps around. -/
theorem returns_makeSorted (R : Runtime) (weighted : Bool) {fuel : ℕ} (hfuel : 2 ≤ fuel)
    (hoffsets : IsOffsets offsets n m o) (hedges : Contents edges m f) (hfit : EdgesFit weighted m f) :
    Returns (fun edges' => ∃ h, Contents edges' m h ∧ PermutedLists n o f h ∧ (m < 2 ^ 59 → SortedLists n o h))
      (makeSorted R weighted fuel offsets edges n) := by
  obtain ⟨fuel, rfl⟩ := Nat.exists_eq_add_of_le' (show 1 ≤ fuel by omega)
  rw [makeSorted]
  refine Returns.bind_eq (isSorted_eq R hoffsets hedges) ?_
  split
  · rename_i hsame
    refine Returns.pure ⟨f, hedges, fun u _ => List.Perm.refl _, fun hm => ?_⟩
    obtain ⟨sorted, heq, hsorted⟩ := returns_isSorted R hm hoffsets hedges
    rw [isSorted_eq R hoffsets hedges, Option.some_inj] at heq
    exact hsorted.mp (heq.symm.trans hsame)
  · refine (returns_sortLists R weighted (R.schedules 6 fuel) hoffsets hedges hfit).bind ?_
    rintro edges' ⟨h, hh, hperm, hsorted⟩
    exact Returns.of_eq (makeSorted_of_sorted R weighted (by omega) hoffsets hh hsorted)
      ⟨h, hh, hperm, fun _ => hsorted⟩

/-- `is_sorted` tells whether every list is sorted, and `make_sorted` sorts the lists with at most two tests. -/
theorem makeSorted_sorts (R : Runtime) (weighted : Bool) (hm : m < 2 ^ 59) (hoffsets : IsOffsets offsets n m o)
    (hedges : Contents edges m f) (hfit : EdgesFit weighted m f) :
    Returns (fun sorted => sorted = true ↔ SortedLists n o f) (isSorted R offsets edges n) ∧
      ∀ fuel ≥ 2, Returns (fun edges' => (SortedLists n o f → edges' = edges) ∧
        ∃ h, Contents edges' m h ∧ PermutedLists n o f h ∧ SortedLists n o h)
          (makeSorted R weighted fuel offsets edges n) := by
  refine ⟨returns_isSorted R hm hoffsets hedges, fun fuel hfuel => ?_⟩
  by_cases hsorted : SortedLists n o f
  · exact Returns.of_eq (makeSorted_of_sorted R weighted (by omega) hoffsets hedges hsorted)
      ⟨fun _ => rfl, f, hedges, fun u _ => List.Perm.refl _, hsorted⟩
  · refine (returns_makeSorted R weighted hfuel hoffsets hedges hfit).mono ?_
    rintro edges' ⟨h, hh, hperm, hsorts⟩
    exact ⟨fun hsorted' => absurd hsorted' hsorted, h, hh, hperm, hsorts hm⟩

/-- The list of vertex 0 is not sorted, that of vertex 1 is empty. -/
theorem makeSorted_sorts_empty :
    Returns (fun sorted => sorted = true ↔ SortedLists 3 (fun u => #[0, 2, 2, 3].getD u 0) fun i =>
      #[2, 1, 0].getD i 0) (isSorted Runtime.sequential #[0, 2, 2, 3] #[2, 1, 0] 3) ∧
      ∀ fuel ≥ 2, Returns (fun edges' =>
        (SortedLists 3 (fun u => #[0, 2, 2, 3].getD u 0) (fun i => #[2, 1, 0].getD i 0) → edges' = #[2, 1, 0]) ∧
        ∃ h, Contents edges' 3 h ∧ PermutedLists 3 (fun u => #[0, 2, 2, 3].getD u 0)
          (fun i => #[2, 1, 0].getD i 0) h ∧
          SortedLists 3 (fun u => #[0, 2, 2, 3].getD u 0) h)
            (makeSorted Runtime.sequential false fuel #[0, 2, 2, 3] #[2, 1, 0] 3) :=
  makeSorted_sorts Runtime.sequential false (by norm_num)
    ⟨⟨rfl, by decide⟩, rfl, by decide, rfl⟩ ⟨rfl, by decide⟩ (by intro _; decide)

end MakeSorted

end GraphFile

end ToggleTree
