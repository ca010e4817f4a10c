import ToggleTree.Primitives.Blocks
import ToggleTree.Primitives.Hash
import Mathlib.Logic.Equiv.Basic

/-!
# Random permutation

Small arrays are shuffled sequentially. Large ones are distributed to buckets by the hash of the
position, with one row of counters for every block of positions, and then every bucket is
shuffled. A bucket is filled in the order of the positions, so the blocks, which depend on the
number of workers, cannot be seen in the result.
-/

namespace ToggleTree

open Checked StableRank

namespace Primitives

section Shuffle

variable {T : Type}

/-- Exchange two elements. -/
def swap (values : Array T) (i j : ℕ) : Option (Array T) := do
  let x ← values[i]?
  let y ← values[j]?
  let values ← write values i y
  write values j x

/-- The element that `first + i` is exchanged with. -/
def partner (first i : ℕ) (state : Word) : ℕ := first + (hash64 (BitVec.ofNat 64 i + state)).toNat % (i + 1)

/-- The loop that counts `i` down to one. -/
def shuffleDown (first : ℕ) (state : Word) : ℕ → Array T → Option (Array T)
  | 0, values => some values
  | i + 1, values => do
    let values ← swap values (first + (i + 1)) (partner first (i + 1) state)
    shuffleDown first state i values

/-- Shuffle the elements from `first` up to `last`. -/
def seqRandomShuffle (values : Array T) (first last : ℕ) (state : Word) : Option (Array T) :=
  if last - first < 2 then some values else shuffleDown first state (last - first - 1) values

/-- Where the shuffle takes the elements from. -/
def shuffleFrom (first : ℕ) (state : Word) : ℕ → Equiv.Perm ℕ
  | 0 => 1
  | i + 1 => Equiv.swap (first + (i + 1)) (partner first (i + 1) state) * shuffleFrom first state i

/-- Where the shuffle of a range takes the elements from. -/
def shuffleRange (first last : ℕ) (state : Word) : Equiv.Perm ℕ := shuffleFrom first state (last - first - 1)

variable {values : Array T} {n first last : ℕ} {g : ℕ → T} {state : Word}

/-- The partner is in the part that is shuffled. -/
theorem partner_mem (first i : ℕ) (state : Word) :
    first ≤ partner first i state ∧ partner first i state ≤ first + i := by
  have := Nat.mod_lt (hash64 (BitVec.ofNat 64 i + state)).toNat (by omega : 0 < i + 1)
  unfold partner
  omega

/-- Swapping two entries is a transposition. -/
theorem returns_swap {i j : ℕ} (h : Contents values n g) (hi : i < n) (hj : j < n) :
    Returns (fun values => Contents values n (g ∘ Equiv.swap i j)) (swap values i j) := by
  refine Returns.bind_eq (h.get i hi) (Returns.bind_eq (h.get j hj) ?_)
  obtain ⟨values₁, hw₁, h₁⟩ := h.write hi (g j)
  obtain ⟨values₂, hw₂, h₂⟩ := h₁.write hj (g i)
  refine Returns.bind_eq hw₁ (Returns.of_eq hw₂ (h₂.congr fun p _ => ?_))
  rcases eq_or_ne p j with rfl | hpj
  · rw [Function.update_self, Function.comp_apply, Equiv.swap_apply_right]
  · rw [Function.update_of_ne hpj]
    rcases eq_or_ne p i with rfl | hpi
    · rw [Function.update_self, Function.comp_apply, Equiv.swap_apply_left]
    · rw [Function.update_of_ne hpi, Function.comp_apply, Equiv.swap_apply_of_ne_of_ne hpi hpj]

/-- A part of the shuffle is a permutation. -/
theorem returns_shuffleDown {i : ℕ} (h : Contents values n g) (hi : i = 0 ∨ first + i < n) :
    Returns (fun values => Contents values n (g ∘ shuffleFrom first state i))
      (shuffleDown first state i values) := by
  induction i generalizing values g with
  | zero => exact Returns.pure h
  | succ i ih =>
    have hpartner := partner_mem first (i + 1) state
    refine (returns_swap h (by omega) (by omega)).bind fun values' h' => ?_
    refine (ih h' (by omega)).mono fun values'' h'' => ?_
    rwa [Function.comp_assoc, ← Equiv.Perm.coe_mul] at h''

/-- A shuffle only moves elements of its range. -/
theorem shuffleFrom_fixes {i p : ℕ} (hp : p < first ∨ first + i < p) : shuffleFrom first state i p = p := by
  induction i with
  | zero => rfl
  | succ i ih =>
    have hpartner := partner_mem first (i + 1) state
    rw [shuffleFrom, Equiv.Perm.mul_apply, ih (by omega), Equiv.swap_apply_of_ne_of_ne (by omega) (by omega)]

/-- The shuffle of a range is a permutation of it. -/
theorem returns_seqRandomShuffle (h : Contents values n g) (hlast : last ≤ n) :
    Returns (fun values => Contents values n (g ∘ shuffleRange first last state))
      (seqRandomShuffle values first last state) := by
  rw [seqRandomShuffle, shuffleRange]
  split
  · obtain hz : last - first - 1 = 0 := by omega
    rw [hz]
    exact Returns.pure h
  · exact returns_shuffleDown h (by omega)

/-- The shuffle of a range fixes the positions outside it. -/
theorem shuffleRange_fixes {p : ℕ} (hp : p < first ∨ last ≤ p) : shuffleRange first last state p = p := by
  rw [shuffleRange]
  by_cases hz : last - first - 1 = 0
  · rw [hz]
    rfl
  · exact shuffleFrom_fixes (by omega)

/-- The elements of the range stay in the range. -/
theorem shuffleRange_mem {p : ℕ} (hp : first ≤ p) (hp' : p < last) :
    first ≤ shuffleRange first last state p ∧ shuffleRange first last state p < last := by
  by_contra hout
  have hfix : shuffleRange first last state (shuffleRange first last state p) = shuffleRange first last state p :=
    shuffleRange_fixes (by omega)
  have := (shuffleRange first last state).injective hfix
  omega

/-- Permuting the indices below `n` permutes the elements. -/
theorem map_comp_perm (τ : Equiv.Perm ℕ) (hτ : ∀ p, n ≤ p → τ p = p) (g : ℕ → T) :
    ((List.range n).map (g ∘ τ)).Perm ((List.range n).map g) := by
  have hlt : ∀ p < n, τ p < n := by
    intro p hp
    by_contra hge
    have := τ.injective (hτ (τ p) (by omega))
    omega
  have hrange : ((List.range n).map τ).Perm (List.range n) := by
    have hnodup : ((List.range n).map τ).Nodup := List.nodup_range.map τ.injective
    refine (hnodup.subperm fun p hp => ?_).perm_of_length_le (by rw [List.length_map])
    obtain ⟨q, hq, rfl⟩ := List.mem_map.mp hp
    exact List.mem_range.mpr (hlt q (List.mem_range.mp hq))
  rw [← List.map_map]
  exact hrange.map g

end Shuffle

section Buckets

variable {T : Type}

/-- The bucket of a position. -/
def bucketOf (numBuckets : ℕ) (seed : Word) (i : ℕ) : ℕ :=
  (hash64 (BitVec.ofNat 64 i + seed)).toNat &&& (numBuckets - 1)

/-- The state of the random generator for the shuffle of a bucket. -/
def bucketSeed (seed : Word) (bucket : ℕ) : Word := hash64 (hash64 (BitVec.ofNat 64 bucket + seed))

/-- The number of buckets for `n` elements. -/
def numBucketsOf (n : ℕ) : ℕ :=
  1 <<< if n < 1 <<< 27 then (log2 (n - 1) - 7) / 2 else log2 (n - 1) - 17

/-- Count the positions of every bucket in every block. -/
def countBlocks (schedule : Schedule) (numBuckets numBlocks blockSize n : ℕ) (key : ℕ → ℕ) (counts : Array ℕ) :
    Option (Array ℕ) :=
  parallelLoop schedule numBlocks counts fun block counts =>
    loop (firstOf blockSize block) (lastOf blockSize n block) counts fun i counts =>
      increment counts (block * numBuckets + key i)

/-- Write every position to its bucket; the positions of the output that are written are recorded. -/
def scatter (schedule : Schedule) (numBuckets numBlocks blockSize n : ℕ) (key : ℕ → ℕ) (cast : ℕ → T)
    (counts : Array ℕ) (output : Array T) : Option (Array ℕ × Array T × List ℕ) :=
  parallelLoop schedule numBlocks (counts, output, []) fun block state =>
    loop (firstOf blockSize block) (lastOf blockSize n block) state fun i (counts, output, written) => do
      let destination ← counts[block * numBuckets + key i]?
      let counts ← write counts (block * numBuckets + key i) (destination + 1)
      let output ← write output destination (cast i)
      some (counts, output, destination :: written)

/-- Shuffle every bucket. -/
def shuffleBuckets (schedule : Schedule) (numBuckets : ℕ) (seed : Word) (bucketOffsets : Array ℕ)
    (output : Array T) :
    Option (Array T) :=
  parallelLoop schedule numBuckets output fun bucket output => do
    let first ← bucketOffsets[bucket]?
    let last ← bucketOffsets[bucket + 1]?
    seqRandomShuffle output first last (bucketSeed seed bucket)

/-- The permutation, and the positions of the output that the scatter phase wrote. `cast` converts a
position to an element, and `uninit` is what fresh memory holds. -/
def randomPermutation (cast uninit : ℕ → T) (n : ℕ) (seed : Word) (numWorkers : ℕ) (schedules : ℕ → Schedule) :
    Option (Array T × List ℕ) :=
  if n < 8192 then do
    let input := Array.ofFn fun i : Fin n => cast i
    let input ← seqRandomShuffle input 0 n seed
    some (input, [])
  else do
    let numBuckets := numBucketsOf n
    let numBlocks := numWorkers * 2
    let blockSize := ceilDiv n numBlocks
    let counts := Array.replicate (numBlocks * numBuckets % 2 ^ 64) 0
    let counts ← countBlocks (schedules 0) numBuckets numBlocks blockSize n (bucketOf numBuckets seed) counts
    let (bucketOffsets, counts) ← histogram (schedules 1) (schedules 2) numBuckets numBlocks counts
    let output := Array.ofFn fun i : Fin n => uninit i
    let (_, output, written) ←
      scatter (schedules 3) numBuckets numBlocks blockSize n (bucketOf numBuckets seed) cast counts output
    let output ← shuffleBuckets (schedules 4) numBuckets seed bucketOffsets output
    some (output, written)

variable {numBuckets numBlocks blockSize n : ℕ} {key : ℕ → ℕ} {cast : ℕ → T}

/-- The counts of the blocks, whatever their order. -/
theorem returns_countBlocks {counts : Array ℕ} (schedule : Schedule) (hsize : 0 < blockSize)
    (hfit : numBlocks * blockSize < 2 ^ 64) (hkey : ∀ i < n, key i < numBuckets)
    (hcounts : Contents counts (numBlocks * numBuckets) fun _ => 0) :
    Returns (fun counts => ∃ f, Contents counts (numBlocks * numBuckets) f ∧
      CountsBlocks numBuckets numBlocks blockSize n key f)
      (countBlocks schedule numBuckets numBlocks blockSize n key counts) := by
  refine (Returns.blocks (I := Counting numBuckets numBlocks blockSize n key) hsize hfit
    (Counting.start hcounts) ?_).mono fun counts h => h.all
  exact fun reached i counts hi hblock hstart hreached h => h.increment hblock hstart hreached (hkey i hi)

/-- The counters hold the ranks of the next positions. -/
structure Scattering (numBuckets numBlocks blockSize n : ℕ) (key : ℕ → ℕ) (cast : ℕ → T) (reached : ℕ → ℕ)
    (state : Array ℕ × Array T × List ℕ) : Prop where
  counts : ∃ f, Contents state.1 (numBlocks * numBuckets) f ∧ ∀ j < numBlocks, ∀ b < numBuckets,
    f (j * numBuckets + b) = first key n b + occurrences key b (reached j)
  delivered : Delivered blockSize n key cast reached state.2.1 state.2.2

/-- One position is written. -/
theorem Scattering.step {reached : ℕ → ℕ} {i : ℕ} {counts : Array ℕ} {output : Array T} {written : List ℕ}
    (hs : Scattering numBuckets numBlocks blockSize n key cast reached (counts, output, written)) (hi : i < n)
    (hblock : i / blockSize < numBlocks) (hkey : key i < numBuckets) (hreached : reached (i / blockSize) = i) :
    Returns (Scattering numBuckets numBlocks blockSize n key cast
      (Function.update reached (i / blockSize) (i + 1))) (do
      let destination ← counts[i / blockSize * numBuckets + key i]?
      let counts ← write counts (i / blockSize * numBuckets + key i) (destination + 1)
      let output ← write output destination (cast i)
      some (counts, output, destination :: written)) := by
  obtain ⟨⟨f, hcounts, hf⟩, hdelivered⟩ := hs
  have hentry := entry_lt hblock hkey
  have hdestination : f (i / blockSize * numBuckets + key i) = rank key n i := by
    rw [hf _ hblock _ hkey, hreached, rank_eq]
  refine Returns.bind_eq (hcounts.get _ hentry) ?_
  rw [hdestination]
  obtain ⟨counts', hwrite, hcounts'⟩ := hcounts.write hentry (rank key n i + 1)
  obtain ⟨output', hwrite', hdelivered'⟩ := hdelivered.write hi hreached
  refine Returns.bind_eq hwrite (Returns.bind_eq hwrite'
    (Returns.pure ⟨⟨_, hcounts', fun j hj b hb => ?_⟩, hdelivered'⟩))
  by_cases hjb : j = i / blockSize ∧ b = key i
  · obtain ⟨rfl, rfl⟩ := hjb
    rw [Function.update_self, Function.update_self, occurrences_succ, if_pos rfl, rank_eq, Nat.add_assoc]
  · rw [Function.update_of_ne fun heq => hjb (entry_inj hb hkey heq), hf j hj b hb]
    by_cases hj' : j = i / blockSize
    · subst hj'
      rw [Function.update_self, hreached, occurrences_succ, if_neg fun h => hjb ⟨rfl, h.symm⟩, Nat.add_zero]
    · rw [Function.update_of_ne hj']

/-- After the scatter phase every position is at its rank, and every position of the output was written once. -/
theorem returns_scatter {counts : Array ℕ} {output : Array T} {f : ℕ → ℕ} {g : ℕ → T} (schedule : Schedule)
    (hsize : 0 < blockSize) (hfit : numBlocks * blockSize < 2 ^ 64) (hcover : n ≤ numBlocks * blockSize)
    (hkey : ∀ i < n, key i < numBuckets) (hf : CountsBlocks numBuckets numBlocks blockSize n key f)
    (hcounts : Contents counts (numBlocks * numBuckets) (destinationOf numBuckets numBlocks f))
    (houtput : Contents output n g) :
    Returns (fun r => Placed key n cast r.2.1 ∧ r.2.2.Perm (List.range n))
      (scatter schedule numBuckets numBlocks blockSize n key cast counts output) := by
  refine (Returns.blocks (I := Scattering numBuckets numBlocks blockSize n key cast) hsize hfit
    ⟨⟨_, hcounts, fun j hj b hb => ?_⟩, Delivered.start hsize houtput⟩ ?_).mono ?_
  · rw [hf.destinationOf hcover hj hb, progress, if_neg (Finset.notMem_empty j)]
  · rintro reached i ⟨counts, output, written⟩ hi hblock - hreached hs
    exact hs.step hi hblock (hkey i hi) hreached
  · rintro ⟨counts, output, written⟩ ⟨-, hdelivered⟩
    exact hdelivered.all hsize hcover

/-- The buckets `done` are shuffled. -/
structure Shuffling (numBuckets n : ℕ) (key : ℕ → ℕ) (seed : Word) (done : Finset ℕ)
    (τ : Equiv.Perm ℕ) : Prop where
  fixes : ∀ p, n ≤ p → τ p = p
  bucket : ∀ b < numBuckets, ∀ p, first key n b ≤ p → p < first key n (b + 1) → τ p = if b ∈ done then
    shuffleRange (first key n b) (first key n (b + 1)) (bucketSeed seed b) p else p

/-- One more bucket. -/
theorem Shuffling.insert {seed : Word} {done : Finset ℕ} {τ : Equiv.Perm ℕ} {bucket : ℕ}
    (h : Shuffling numBuckets n key seed done τ) (hbucket : bucket < numBuckets) (hnot : bucket ∉ done) :
    Shuffling numBuckets n key seed (insert bucket done)
      (τ * shuffleRange (first key n bucket) (first key n (bucket + 1)) (bucketSeed seed bucket)) := by
  refine ⟨fun p hp => ?_, fun b hb p hp hp' => ?_⟩
  · have hle : first key n (bucket + 1) ≤ n := first_le _
    rw [Equiv.Perm.mul_apply, shuffleRange_fixes (Or.inr (hle.trans hp)), h.fixes p hp]
  · rw [Equiv.Perm.mul_apply]
    rcases eq_or_ne b bucket with rfl | hne
    · obtain ⟨hq, hq'⟩ : _ ≤ shuffleRange _ _ (bucketSeed seed b) p ∧ _ := shuffleRange_mem hp hp'
      rw [h.bucket b hb _ hq hq', if_neg hnot, if_pos (Finset.mem_insert_self b done)]
    · rw [shuffleRange_fixes (interval_disjoint hne hp hp'), h.bucket b hb p hp hp']
      exact if_congr (by rw [Finset.mem_insert, or_iff_right hne]) rfl rfl

/-- The finished shuffle is determined. -/
theorem Shuffling.eq {seed : Word} {τ τ' : Equiv.Perm ℕ}
    (h : Shuffling numBuckets n key seed (Finset.range numBuckets) τ)
    (h' : Shuffling numBuckets n key seed (Finset.range numBuckets) τ')
    (hkey : ∀ i < n, key i < numBuckets) {p : ℕ}
    (hp : p < n) : τ p = τ' p := by
  obtain ⟨i, hi, rfl⟩ : ∃ i < n, rank key n i = p := exists_rank hp
  rw [h.bucket (key i) (hkey i hi) _ first_le_rank (rank_lt_first hi),
    h'.bucket (key i) (hkey i hi) _ first_le_rank (rank_lt_first hi)]

/-- Shuffling the buckets permutes every bucket. -/
theorem returns_shuffleBuckets {bucketOffsets : Array ℕ} {output : Array T} {g : ℕ → T}
    (schedule : Schedule) (seed : Word)
    (hoffsets : Contents bucketOffsets (numBuckets + 1) (first key n)) (houtput : Contents output n g) :
    Returns (fun output => ∃ τ : Equiv.Perm ℕ, Contents output n (g ∘ τ) ∧
      Shuffling numBuckets n key seed (Finset.range numBuckets) τ)
      (shuffleBuckets schedule numBuckets seed bucketOffsets output) := by
  refine Returns.parallelLoop (I := fun done output => ∃ τ : Equiv.Perm ℕ, Contents output n (g ∘ τ) ∧
    Shuffling numBuckets n key seed done τ)
    ⟨1, houtput, ⟨fun _ _ => rfl, fun _ _ _ _ _ => (if_neg (Finset.notMem_empty _)).symm⟩⟩ ?_
  rintro done bucket output hbucket hnot ⟨τ, houtput, hτ⟩
  refine Returns.bind_eq (hoffsets.get bucket (by omega))
    (Returns.bind_eq (hoffsets.get (bucket + 1) (by omega)) ?_)
  refine (returns_seqRandomShuffle houtput (first_le _)).mono fun output houtput =>
    ⟨_, ?_, hτ.insert hbucket hnot⟩
  rwa [Equiv.Perm.coe_mul, ← Function.comp_assoc]

/-- The result: every position at its rank, and then the buckets shuffled. -/
structure Distributed (numBuckets n : ℕ) (key : ℕ → ℕ) (cast : ℕ → T) (seed : Word)
    (output : Array T) : Prop where
  holds : ∃ (placed : Array T) (g : ℕ → T) (τ : Equiv.Perm ℕ), Placed key n cast placed ∧ Contents placed n g ∧
    Contents output n (g ∘ τ) ∧ Shuffling numBuckets n key seed (Finset.range numBuckets) τ

/-- The output is determined by the keys and the seed. -/
theorem Distributed.eq {seed : Word} {output output' : Array T}
    (h : Distributed numBuckets n key cast seed output)
    (h' : Distributed numBuckets n key cast seed output') (hkey : ∀ i < n, key i < numBuckets) :
    output = output' := by
  obtain ⟨placed, g, τ, hplaced, hg, houtput, hτ⟩ := h
  obtain ⟨placed', g', τ', hplaced', hg', houtput', hτ'⟩ := h'
  obtain rfl := hplaced.eq hplaced'
  refine houtput.eq (houtput'.congr fun p hp => ?_)
  have hlt : τ p < n := by
    by_contra hge
    have := τ.injective (hτ.fixes (τ p) (by omega))
    omega
  have hget := (hg.get _ hlt).symm.trans (hg'.get _ hlt)
  rw [Function.comp_apply, Function.comp_apply, ← hτ.eq hτ' hkey hp]
  exact (Option.some.inj hget).symm

/-- The output is a permutation of the values. -/
theorem Distributed.perm {seed : Word} {output : Array T} (h : Distributed numBuckets n key cast seed output) :
    output.toList.Perm ((List.range n).map cast) := by
  obtain ⟨placed, g, τ, hplaced, hg, houtput, hτ⟩ := h
  rw [houtput.toList]
  refine (map_comp_perm τ hτ.fixes g).trans ?_
  rw [← hg.toList]
  exact hplaced.perm

end Buckets

section RandomPermutation

variable {T : Type} {n numWorkers : ℕ} {cast : ℕ → T}

/-- There is at least one bucket. -/
theorem numBucketsOf_pos (n : ℕ) : 0 < numBucketsOf n := by
  unfold numBucketsOf
  rw [Nat.one_shiftLeft]
  exact Nat.two_pow_pos _

/-- The bucket of a position is in range. -/
theorem bucketOf_lt {numBuckets : ℕ} (hpos : 0 < numBuckets) (seed : Word) (i : ℕ) :
    bucketOf numBuckets seed i < numBuckets := by
  have : bucketOf numBuckets seed i ≤ numBuckets - 1 := Nat.and_le_right
  omega

/-- The matrix of counts has less than `2 ^ 64` entries. -/
theorem matrix_lt (hn : n < 2 ^ 48) (hworkers : numWorkers < 2 ^ 16) :
    numWorkers * 2 * numBucketsOf n < 2 ^ 64 := by
  have hsize : log2 (n - 1) ≤ 48 := Nat.size_le.mpr (by omega)
  have hbuckets : numBucketsOf n ≤ 2 ^ 31 := by
    unfold numBucketsOf
    rw [Nat.one_shiftLeft]
    refine Nat.pow_le_pow_right (by omega) ?_
    split <;> omega
  calc numWorkers * 2 * numBucketsOf n ≤ numWorkers * 2 * 2 ^ 31 := Nat.mul_le_mul_left _ hbuckets
    _ < 2 ^ 64 := by omega

/-- Large arrays. -/
theorem returns_randomPermutation (hn : n < 2 ^ 48) (hlarge : 8192 ≤ n) (hworkers : 1 ≤ numWorkers)
    (hworkers' : numWorkers < 2 ^ 16) (uninit : ℕ → T) (seed : Word) (schedules : ℕ → Schedule) :
    Returns (fun r => Distributed (numBucketsOf n) n (bucketOf (numBucketsOf n) seed) cast seed r.1 ∧
      r.2.Perm (List.range n)) (randomPermutation cast uninit n seed numWorkers schedules) := by
  have hblocks : 0 < numWorkers * 2 := by omega
  have hfits : n + numWorkers * 2 ≤ 2 ^ 64 := by omega
  have hsize : 0 < ceilDiv n (numWorkers * 2) := ceilDiv_pos hfits hblocks (by omega)
  have hfit : numWorkers * 2 * ceilDiv n (numWorkers * 2) < 2 ^ 64 :=
    (mul_ceilDiv_lt hfits hblocks).trans_le hfits
  have hcover : n ≤ numWorkers * 2 * ceilDiv n (numWorkers * 2) := le_mul_ceilDiv hfits hblocks
  have hkey : ∀ i < n, bucketOf (numBucketsOf n) seed i < numBucketsOf n :=
    fun i _ => bucketOf_lt (numBucketsOf_pos n) seed i
  rw [randomPermutation, if_neg (by omega)]
  dsimp only
  rw [Nat.mod_eq_of_lt (matrix_lt hn hworkers')]
  refine (returns_countBlocks _ hsize hfit hkey (Contents.replicate _ 0)).bind ?_
  rintro counts ⟨f, hcounts, hf⟩
  refine (returns_histogram _ _ hcounts).bind ?_
  rintro ⟨bucketOffsets, counts⟩ ⟨hoffsets, hcounts⟩
  refine (returns_scatter _ hsize hfit hcover hkey hf hcounts (Contents.ofFn n uninit)).bind ?_
  rintro ⟨_, output, written⟩ ⟨hplaced, hwritten⟩
  obtain ⟨g, houtput, -⟩ := id hplaced
  refine (returns_shuffleBuckets _ seed
    (hoffsets.congr fun b hb => hf.bucketOffset hcover (by omega)) houtput).bind ?_
  rintro output' ⟨τ, houtput', hτ⟩
  exact Returns.pure ⟨⟨output, g, τ, hplaced, houtput, houtput', hτ⟩, hwritten⟩

/-- Small arrays. -/
theorem randomPermutation_small (hsmall : n < 8192) (seed : Word) :
    ∃ output : Array T, output.toList.Perm ((List.range n).map cast) ∧ ∀ uninit numWorkers schedules,
      randomPermutation cast uninit n seed numWorkers schedules = some (output, []) := by
  obtain ⟨output, houtput, hcontents⟩ :
    Returns _ (seqRandomShuffle (Array.ofFn fun i : Fin n => cast i) 0 n seed) :=
    returns_seqRandomShuffle (Contents.ofFn n cast) le_rfl
  refine ⟨output, ?_, fun uninit numWorkers schedules => ?_⟩
  · rw [hcontents.toList]
    exact map_comp_perm _ (fun p hp => shuffleRange_fixes (Or.inr hp)) cast
  · rw [randomPermutation, if_pos hsmall]
    dsimp only
    rw [houtput]
    rfl

/-- `randomPermutation` returns a permutation of `0, …, n - 1` that depends on nothing but `n` and the seed, and
every position of the output is written once by the scatter phase. -/
theorem randomPermutation_perm (value : T → ℤ) (hn : n < 2 ^ 48) (hcast : ∀ i < n, value (cast i) = i)
    (seed : Word) :
    ∃ output : Array T, (output.toList.map value).Perm ((List.range n).map fun i : ℕ => (i : ℤ)) ∧
      ∀ (uninit : ℕ → T) (numWorkers : ℕ) (schedules : ℕ → Schedule), 1 ≤ numWorkers → numWorkers < 2 ^ 16 →
        ∃ written, randomPermutation cast uninit n seed numWorkers schedules = some (output, written) ∧
          written.Nodup ∧ (∀ p ∈ written, p < n) ∧ (8192 ≤ n → written.Perm (List.range n)) := by
  have hvalues : ((List.range n).map cast).map value = (List.range n).map fun i : ℕ => (i : ℤ) := by
    rw [List.map_map]
    exact List.map_congr_left fun i hi => hcast i (List.mem_range.mp hi)
  rw [← hvalues]
  rcases Nat.lt_or_ge n 8192 with hsmall | hlarge
  · obtain ⟨output, hperm, heq⟩ := @randomPermutation_small T n cast hsmall seed
    exact ⟨output, hperm.map value, fun uninit numWorkers schedules _ _ =>
      ⟨[], heq uninit numWorkers schedules, List.nodup_nil, fun p hp => (List.not_mem_nil hp).elim,
        fun h => by omega⟩⟩
  · obtain ⟨⟨output, _⟩, -, hdist, -⟩ := @returns_randomPermutation T n 1 cast hn hlarge le_rfl
      (by omega) cast seed fun _ => Schedule.ascending
    refine ⟨output, hdist.perm.map value, fun uninit numWorkers schedules hworkers hworkers' => ?_⟩
    obtain ⟨⟨output', written⟩, heq, hdist', hwritten⟩ :=
      @returns_randomPermutation T n numWorkers cast hn hlarge hworkers
      hworkers' uninit seed schedules
    refine ⟨written, ?_, hwritten.nodup_iff.mpr List.nodup_range, fun p hp => ?_, fun _ => hwritten⟩
    · have hout : output = output' := hdist.eq hdist' fun i _ => bucketOf_lt (numBucketsOf_pos n) seed i
      rw [heq, hout]
    · exact List.mem_range.mp (hwritten.mem_iff.mp hp)

/-- Ten thousand elements of 64 bits. -/
theorem randomPermutation_perm_tenThousand :
    ∃ output :
      Array Word, (output.toList.map fun x => (x.toNat : ℤ)).Perm ((List.range 10000).map fun i : ℕ => (i : ℤ)) ∧
      ∀ (uninit : ℕ → Word) (numWorkers : ℕ) (schedules : ℕ → Schedule), 1 ≤ numWorkers → numWorkers < 2 ^ 16 →
        ∃ written, randomPermutation (BitVec.ofNat 64) uninit 10000 7 numWorkers schedules =
          some (output, written) ∧
          written.Nodup ∧ (∀ p ∈ written, p < 10000) ∧ (8192 ≤ 10000 → written.Perm (List.range 10000)) :=
  randomPermutation_perm (fun x : Word => (x.toNat : ℤ)) (by decide : 10000 < 2 ^ 48)
    (fun i hi => by rw [BitVec.toNat_ofNat, Nat.mod_eq_of_lt (by omega)]) 7

end RandomPermutation

end Primitives

end ToggleTree
