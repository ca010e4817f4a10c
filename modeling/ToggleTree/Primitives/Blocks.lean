import ToggleTree.Checked.Rank
import ToggleTree.Primitives.Histogram

/-!
# Counting by blocks and placing by ranks

Positions `0, …, n - 1` with keys below `numBuckets` are cut into blocks of equal size; the last
blocks may be short or empty. If the matrix of counts holds how often each key occurs in each
block, the destinations that `histogram` computes are the stable ranks of the first positions of
the blocks, so neither the blocks nor the order of the loops can be seen in the result.
-/

namespace ToggleTree

open Checked StableRank

namespace Primitives

variable {numBuckets numBlocks blockSize n : ℕ} {key f : ℕ → ℕ}

/-- Where block `block` starts, cut off at the end. -/
def blockStart (blockSize n block : ℕ) : ℕ := min (block * blockSize) n

/-- How often key `b` occurs before position `i`. -/
def occurrences (key : ℕ → ℕ) (b i : ℕ) : ℕ := Nat.count (fun k => key k = b) i

/-- One more position. -/
theorem occurrences_succ (key : ℕ → ℕ) (b i : ℕ) :
    occurrences key b (i + 1) = occurrences key b i + if key i = b then 1 else 0 := Nat.count_succ _ i

/-- A longer part has more occurrences. -/
theorem occurrences_mono {i j : ℕ} (b : ℕ) (h : i ≤ j) : occurrences key b i ≤ occurrences key b j :=
  Nat.count_monotone _ h

/-- The rank is the number of lesser keys and of equal ones before. -/
theorem rank_eq (key : ℕ → ℕ) (n i : ℕ) : rank key n i = first key n (key i) + occurrences key (key i) i := rfl

/-- The blocks begin one after the other. -/
theorem blockStart_mono (block : ℕ) : blockStart blockSize n block ≤ blockStart blockSize n (block + 1) := by
  have : block * blockSize ≤ (block + 1) * blockSize := Nat.mul_le_mul_right _ (Nat.le_succ block)
  unfold blockStart
  omega

/-- The first block begins at 0. -/
theorem blockStart_zero : blockStart blockSize n 0 = 0 := by
  rw [blockStart, Nat.zero_mul, Nat.zero_min]

/-- The last block ends with the input. -/
theorem blockStart_last (h : n ≤ numBlocks * blockSize) : blockStart blockSize n numBlocks = n := min_eq_right h

/-- A nonempty block starts where it says. -/
theorem blockStart_eq {block : ℕ} (h : block * blockSize ≤ n) :
    blockStart blockSize n block = block * blockSize :=
  min_eq_left h

/-- The positions of a block. -/
theorem mem_block {block i : ℕ} (hsize : 0 < blockSize) :
    (block * blockSize ≤ i ∧ i < min (block * blockSize + blockSize) n) ↔ i < n ∧ i / blockSize = block := by
  rw [Nat.div_eq_iff hsize]
  have : 1 ≤ blockSize := hsize
  omega

/-- A position belongs to a block. -/
theorem block_lt {i : ℕ} (hcover : n ≤ numBlocks * blockSize) (hi : i < n) : i / blockSize < numBlocks :=
  Nat.div_lt_of_lt_mul (by rw [Nat.mul_comm]; omega)

/-- The number of blocks or elements that `x` takes in pieces of `k`, rounded up. -/
def ceilDiv (x k : ℕ) : ℕ := (x + k - 1) % 2 ^ 64 / k

/-- The first position of a block, as the code computes it. -/
def firstOf (blockSize block : ℕ) : ℕ := block * blockSize % 2 ^ 64

/-- The end of a block, as the code computes it. -/
def lastOf (blockSize n block : ℕ) : ℕ := min ((firstOf blockSize block + blockSize) % 2 ^ 64) n

/-- The quotient is rounded up if the sum does not wrap around. -/
theorem ceilDiv_eq {x k : ℕ} (h : x + k ≤ 2 ^ 64) : ceilDiv x k = (x + k - 1) / k := by
  rw [ceilDiv, Nat.mod_eq_of_lt (by omega)]

/-- The rounded quotient is large enough. -/
theorem le_mul_ceilDiv {x k : ℕ} (h : x + k ≤ 2 ^ 64) (hk : 0 < k) : x ≤ k * ceilDiv x k := by
  rw [ceilDiv_eq h]
  have := Nat.div_add_mod (x + k - 1) k
  have := Nat.mod_lt (x + k - 1) hk
  omega

/-- The rounded quotient is not too large. -/
theorem mul_ceilDiv_lt {x k : ℕ} (h : x + k ≤ 2 ^ 64) (hk : 0 < k) : k * ceilDiv x k < x + k := by
  rw [ceilDiv_eq h]
  have := Nat.mul_div_le (x + k - 1) k
  omega

/-- The rounded quotient is positive. -/
theorem ceilDiv_pos {x k : ℕ} (h : x + k ≤ 2 ^ 64) (hk : 0 < k) (hx : 0 < x) : 0 < ceilDiv x k := by
  refine Nat.pos_of_ne_zero fun hz => ?_
  have := le_mul_ceilDiv h hk
  rw [hz, Nat.mul_zero] at this
  omega

/-- A block begins where the code says. -/
theorem firstOf_eq {block : ℕ} (hfit : block * blockSize < 2 ^ 64) (hle : block * blockSize ≤ n) :
    firstOf blockSize block = blockStart blockSize n block := by
  rw [firstOf, Nat.mod_eq_of_lt hfit, blockStart_eq hle]

/-- A block ends where the code says. -/
theorem lastOf_eq {block : ℕ} (hfit : (block + 1) * blockSize < 2 ^ 64) :
    lastOf blockSize n block = blockStart blockSize n (block + 1) := by
  have hsucc : (block + 1) * blockSize = block * blockSize + blockSize := Nat.succ_mul block blockSize
  rw [lastOf, firstOf, Nat.mod_eq_of_lt (by omega : block * blockSize < 2 ^ 64),
    Nat.mod_eq_of_lt (by omega), blockStart, hsucc]

/-- The loop through a block keeps an invariant of the next position, also when the block is empty. -/
theorem Returns.block {σ : Type} {I : ℕ → σ → Prop} {s : σ} {body : ℕ → σ → Option σ} {block : ℕ}
    (hsize : 0 < blockSize)
    (hfit : (block + 1) * blockSize < 2 ^ 64) (h0 : I (blockStart blockSize n block) s)
    (hbody : ∀ i s, i < n → i / blockSize = block → I i s → Returns (I (i + 1)) (body i s)) :
    Returns (I (blockStart blockSize n (block + 1)))
      (Checked.loop (firstOf blockSize block) (lastOf blockSize n block) s body) := by
  have hsucc : (block + 1) * blockSize = block * blockSize + blockSize := Nat.succ_mul block blockSize
  rw [lastOf_eq hfit, firstOf, Nat.mod_eq_of_lt (by omega)]
  by_cases hle : block * blockSize ≤ n
  · rw [blockStart_eq hle] at h0
    refine Returns.loop ?_ h0 fun i s hi hi' => ?_
    · rw [blockStart]
      omega
    · rw [blockStart, hsucc] at hi'
      obtain ⟨hn, hb⟩ := (mem_block hsize).mp ⟨hi, hi'⟩
      exact hbody i s hn hb
  · have h₁ : blockStart blockSize n block = n := min_eq_right (by omega)
    have h₂ : blockStart blockSize n (block + 1) = n := min_eq_right (by omega)
    rw [h₁] at h0
    rw [h₂]
    exact Returns.loop_of_le (by omega) h0

/-- How far every block has come when the blocks `done` are done. -/
def progress (blockSize n : ℕ) (done : Finset ℕ) (block : ℕ) : ℕ :=
  if block ∈ done then blockStart blockSize n (block + 1) else blockStart blockSize n block

/-- A block that has not been done is at its start. -/
theorem progress_start {done : Finset ℕ} {block : ℕ} (h : block ∉ done) :
    Function.update (progress blockSize n done) block (blockStart blockSize n block) =
      progress blockSize n done :=
  Function.update_eq_self_iff.mpr (if_neg h).symm

/-- A block that has been done is at its end. -/
theorem progress_insert {done : Finset ℕ} {block : ℕ} :
    Function.update (progress blockSize n done) block (blockStart blockSize n (block + 1)) =
      progress blockSize n (insert block done) := by
  funext j
  rcases eq_or_ne j block with rfl | hne
  · rw [Function.update_self, progress, if_pos (Finset.mem_insert_self j done)]
  · rw [Function.update_of_ne hne, progress, progress]
    exact if_congr (by rw [Finset.mem_insert, or_iff_right hne]) rfl rfl

/-- In the end every position below `n` has been passed. -/
theorem progress_all (hcover : n ≤ numBlocks * blockSize) (hsize : 0 < blockSize) {i : ℕ} (hi : i < n) :
    i < progress blockSize n (Finset.range numBlocks) (i / blockSize) := by
  rw [progress, if_pos (Finset.mem_range.mpr (block_lt hcover hi)), blockStart, Nat.succ_mul]
  exact ((mem_block hsize).mpr ⟨hi, rfl⟩).2

/-- All blocks in parallel keep an invariant of how far every block has come. -/
theorem Returns.blocks {σ : Type} {I : (ℕ → ℕ) → σ → Prop} {s : σ} {body : ℕ → ℕ → σ → Option σ}
    {schedule : Schedule}
    (hsize : 0 < blockSize) (hfit : numBlocks * blockSize < 2 ^ 64) (h0 : I (progress blockSize n ∅) s)
    (hbody : ∀ reached i s, i < n → i / blockSize < numBlocks → blockStart blockSize n (i / blockSize) ≤ i →
      reached (i / blockSize) = i → I reached s →
      Returns (I (Function.update reached (i / blockSize) (i + 1))) (body (i / blockSize) i s)) :
    Returns (I (progress blockSize n (Finset.range numBlocks)))
      (Checked.parallelLoop schedule numBlocks s fun block s =>
      Checked.loop (firstOf blockSize block) (lastOf blockSize n block) s (body block)) := by
  refine Returns.parallelLoop (I := fun done => I (progress blockSize n done)) h0 fun done block s
    hblock hnot hs => ?_
  have hend : (block + 1) * blockSize ≤ numBlocks * blockSize := Nat.mul_le_mul_right _ hblock
  rw [← progress_start hnot] at hs
  rw [← progress_insert]
  refine Returns.block (I := fun i => I (Function.update (progress blockSize n done) block i)) hsize
    (by omega) hs ?_
  rintro i s hi rfl hs
  have hstart : blockStart blockSize n (i / blockSize) ≤ i :=
    (min_le_left _ _).trans ((mem_block hsize).mpr ⟨hi, rfl⟩).1
  refine (hbody _ i s hi hblock hstart (Function.update_self _ _ _) hs).mono fun s hs => ?_
  rwa [Function.update_idem] at hs

/-- Row `block` counts the keys in block `block`. -/
def CountsBlocks (numBuckets numBlocks blockSize n : ℕ) (key f : ℕ → ℕ) : Prop :=
  ∀ block < numBlocks, ∀ b < numBuckets, f (block * numBuckets + b) =
    occurrences key b (blockStart blockSize n (block + 1)) - occurrences key b (blockStart blockSize n block)

/-- The sum over a column is the number of occurrences in the blocks before. -/
theorem CountsBlocks.columnSum (h : CountsBlocks numBuckets numBlocks blockSize n key f) {block b : ℕ}
    (hblock : block ≤ numBlocks) (hb : b < numBuckets) :
    columnSum numBuckets f block b = occurrences key b (blockStart blockSize n block) := by
  rw [Primitives.columnSum, occurrences, ← sum_count (fun k => key k = b) blockStart_zero blockStart_mono block]
  exact Finset.sum_congr rfl fun j hj => h j (by have := Finset.mem_range.mp hj; omega) b hb

/-- The buckets get the intervals of their keys. -/
theorem CountsBlocks.bucketOffset (h : CountsBlocks numBuckets numBlocks blockSize n key f)
    (hcover : n ≤ numBlocks * blockSize) {b : ℕ} (hb : b ≤ numBuckets) :
    bucketOffset numBuckets numBlocks f b = first key n b := by
  rw [Primitives.bucketOffset, first_eq_sum]
  refine Finset.sum_congr rfl fun c hc => ?_
  rw [h.columnSum le_rfl (by have := Finset.mem_range.mp hc; omega), blockStart_last hcover]
  rfl

/-- The first destination of a bucket in a block is the rank that its next position has. -/
theorem CountsBlocks.destinationOf (h : CountsBlocks numBuckets numBlocks blockSize n key f)
    (hcover : n ≤ numBlocks * blockSize) {block b : ℕ} (hblock : block < numBlocks) (hb : b < numBuckets) :
    destinationOf numBuckets numBlocks f (block * numBuckets + b) =
      first key n b + occurrences key b (blockStart blockSize n block) := by
  rw [Primitives.destinationOf, entry_div hb, entry_mod hb, h.bucketOffset hcover hb.le, h.columnSum hblock.le hb]

/-- Add one to an entry. -/
def increment (counts : Array ℕ) (entry : ℕ) : Option (Array ℕ) := do
  let count ← counts[entry]?
  write counts entry (count + 1)

/-- The positions before `reached` in every block are counted. -/
structure Counting (numBuckets numBlocks blockSize n : ℕ) (key reached : ℕ → ℕ) (counts : Array ℕ) : Prop where
  counts : ∃ f, Contents counts (numBlocks * numBuckets) f ∧ ∀ j < numBlocks, ∀ b < numBuckets,
    f (j * numBuckets + b) = occurrences key b (reached j) - occurrences key b (blockStart blockSize n j)

namespace Counting

variable {counts : Array ℕ} {reached : ℕ → ℕ}

/-- Before any block all counts are 0. -/
theorem start (h : Contents counts (numBlocks * numBuckets) fun _ => 0) :
    Counting numBuckets numBlocks blockSize n key (progress blockSize n ∅) counts :=
  ⟨_, h, fun j _ b _ => by rw [progress, if_neg (Finset.notMem_empty j), Nat.sub_self]⟩

/-- The next position of a block is counted. -/
theorem increment {i : ℕ} (h : Counting numBuckets numBlocks blockSize n key reached counts)
    (hblock : i / blockSize < numBlocks) (hstart : blockStart blockSize n (i / blockSize) ≤ i)
    (hreached : reached (i / blockSize) = i) (hkey : key i < numBuckets) :
    Returns (Counting numBuckets numBlocks blockSize n key (Function.update reached (i / blockSize) (i + 1)))
      (Primitives.increment counts (i / blockSize * numBuckets + key i)) := by
  obtain ⟨f, hcounts, hf⟩ := h
  have hentry := entry_lt hblock hkey
  refine Returns.bind_eq (hcounts.get _ hentry) ?_
  obtain ⟨counts', hwrite, hcounts'⟩ := hcounts.write hentry (f (i / blockSize * numBuckets + key i) + 1)
  refine Returns.of_eq hwrite ⟨_, hcounts', fun j hj b hb => ?_⟩
  by_cases hjb : j = i / blockSize ∧ b = key i
  · obtain ⟨rfl, rfl⟩ := hjb
    have hmono : occurrences key (key i) (blockStart blockSize n (i / blockSize)) ≤ occurrences key (key i) i :=
      occurrences_mono _ hstart
    rw [Function.update_self, hf _ hj _ hb, hreached, Function.update_self, occurrences_succ, if_pos rfl]
    omega
  · rw [Function.update_of_ne fun heq => hjb (entry_inj hb hkey heq), hf j hj b hb]
    by_cases hj' : j = i / blockSize
    · subst hj'
      rw [Function.update_self, hreached, occurrences_succ, if_neg fun h => hjb ⟨rfl, h.symm⟩, Nat.add_zero]
    · rw [Function.update_of_ne hj']

/-- After all blocks every block has been counted. -/
theorem all (h : Counting numBuckets numBlocks blockSize n key
    (progress blockSize n (Finset.range numBlocks)) counts) :
    ∃ f, Contents counts (numBlocks * numBuckets) f ∧ CountsBlocks numBuckets numBlocks blockSize n key f := by
  obtain ⟨f, hcounts, hf⟩ := h
  refine ⟨f, hcounts, fun j hj b hb => ?_⟩
  rw [hf j hj b hb, progress, if_pos (Finset.mem_range.mpr hj)]

end Counting

/-- The array holds at every rank what belongs to its position. -/
structure Placed {T : Type} (key : ℕ → ℕ) (n : ℕ) (value : ℕ → T) (output : Array T) : Prop where
  holds : ∃ g, Contents output n g ∧ ∀ i < n, g (rank key n i) = value i

namespace Placed

variable {T : Type} {value : ℕ → T} {output output' : Array T}

/-- What is placed is determined. -/
theorem eq (h : Placed key n value output) (h' : Placed key n value output') : output = output' := by
  obtain ⟨g, hg, hv⟩ := h
  obtain ⟨g', hg', hv'⟩ := h'
  refine hg.eq (hg'.congr fun p hp => ?_)
  obtain ⟨i, hi, rfl⟩ : ∃ i < n, rank key n i = p := exists_rank hp
  rw [hv i hi, hv' i hi]

/-- The output is a permutation of the values. -/
theorem perm (h : Placed key n value output) : output.toList.Perm ((List.range n).map value) := by
  obtain ⟨g, hg, hv⟩ := h
  rw [hg.toList]
  exact map_perm hv

end Placed

/-- The positions that were written: those of a set of positions, each once. -/
structure Written (key : ℕ → ℕ) (n : ℕ) (done : ℕ → Prop) (written : List ℕ) : Prop where
  nodup : written.Nodup
  mem : ∀ p, p ∈ written ↔ ∃ i < n, done i ∧ rank key n i = p

namespace Written

variable {done done' : ℕ → Prop} {written : List ℕ}

/-- Nothing has been written. -/
theorem nil (h : ∀ i < n, ¬done i) : Written key n done [] :=
  ⟨List.nodup_nil, fun _ => ⟨fun hp => (List.not_mem_nil hp).elim, fun ⟨i, hi, hd, _⟩ => (h i hi hd).elim⟩⟩

/-- Writing the rank of one more position. -/
theorem cons (h : Written key n done written) {i : ℕ} (hi : i < n) (hnot : ¬done i)
    (hdone : ∀ k < n, done' k ↔ k = i ∨ done k) : Written key n done' (rank key n i :: written) := by
  refine ⟨List.nodup_cons.mpr ⟨fun hmem => ?_, h.nodup⟩, fun p => ?_⟩
  · obtain ⟨k, hk, hd, heq⟩ := (h.mem _).mp hmem
    exact hnot (rank_injOn hk hi heq ▸ hd)
  · rw [List.mem_cons, h.mem]
    constructor
    · rintro (rfl | ⟨k, hk, hd, rfl⟩)
      · exact ⟨i, hi, (hdone i hi).mpr (Or.inl rfl), rfl⟩
      · exact ⟨k, hk, (hdone k hk).mpr (Or.inr hd), rfl⟩
    · rintro ⟨k, hk, hd, rfl⟩
      rcases (hdone k hk).mp hd with rfl | hd
      · exact Or.inl rfl
      · exact Or.inr ⟨k, hk, hd, rfl⟩

/-- What has been written depends only on which positions are done. -/
theorem congr (h : Written key n done written) (hdone : ∀ k < n, done' k ↔ done k) :
    Written key n done' written :=
  ⟨h.nodup, fun p => (h.mem p).trans ⟨fun ⟨k, hk, hd, hp⟩ => ⟨k, hk, (hdone k hk).mpr hd, hp⟩,
    fun ⟨k, hk, hd, hp⟩ => ⟨k, hk, (hdone k hk).mp hd, hp⟩⟩⟩

/-- In the end every position of the array was written once. -/
theorem perm (h : Written key n done written) (hdone : ∀ k < n, done k) : written.Perm (List.range n) := by
  refine (List.perm_ext_iff_of_nodup h.nodup List.nodup_range).mpr fun p => ?_
  rw [h.mem, List.mem_range]
  constructor
  · rintro ⟨i, hi, _, rfl⟩
    exact rank_lt hi
  · intro hp
    obtain ⟨i, hi, heq⟩ : ∃ i < n, rank key n i = p := exists_rank hp
    exact ⟨i, hi, hdone i hi, heq⟩

end Written

/-- The positions before `reached` in every block have been written to their ranks, and nothing else has. -/
structure Delivered {T : Type} (blockSize n : ℕ) (key : ℕ → ℕ) (value : ℕ → T) (reached : ℕ → ℕ)
    (output : Array T) (written : List ℕ) : Prop where
  output : ∃ g, Contents output n g ∧ ∀ k < n, k < reached (k / blockSize) → g (rank key n k) = value k
  written : Written key n (fun k => k < reached (k / blockSize)) written

namespace Delivered

variable {T : Type} {value : ℕ → T} {output : Array T} {written : List ℕ}

/-- Before any block nothing has been delivered. -/
theorem start {g : ℕ → T} (hsize : 0 < blockSize) (houtput : Contents output n g) :
    Delivered blockSize n key value (progress blockSize n ∅) output [] := by
  have hnone : ∀ k < n, ¬k < progress blockSize n ∅ (k / blockSize) := by
    intro k hk
    rw [progress, if_neg (Finset.notMem_empty _), not_lt]
    exact (min_le_left _ _).trans ((mem_block hsize).mpr ⟨hk, rfl⟩).1
  exact ⟨⟨g, houtput, fun k hk hd => (hnone k hk hd).elim⟩, Written.nil hnone⟩

/-- The next position of a block is written. -/
theorem write {reached : ℕ → ℕ} {i : ℕ} (h : Delivered blockSize n key value reached output written) (hi : i < n)
    (hreached : reached (i / blockSize) = i) :
    ∃ output', Checked.write output (rank key n i) (value i) = some output' ∧
      Delivered blockSize n key value (Function.update reached (i / blockSize) (i + 1)) output'
        (rank key n i :: written) := by
  obtain ⟨⟨g, houtput, hg⟩, hwritten⟩ := h
  have hdone : ∀ k < n, k < Function.update reached (i / blockSize) (i + 1) (k / blockSize) ↔
      k = i ∨ k < reached (k / blockSize) := by
    intro k _
    by_cases hk : k / blockSize = i / blockSize
    · rw [hk, Function.update_self, hreached]
      omega
    · rw [Function.update_of_ne hk]
      exact (or_iff_right fun h : k = i => hk (by rw [h])).symm
  obtain ⟨output', hwrite, houtput'⟩ := houtput.write (show rank key n i < n from rank_lt hi) (value i)
  refine ⟨output', hwrite, ⟨_, houtput', fun k hk hd => ?_⟩,
    hwritten.cons hi (by rw [hreached]; exact lt_irrefl i) hdone⟩
  rcases (hdone k hk).mp hd with rfl | hd
  · rw [Function.update_self]
  · have hne : k ≠ i := fun h => by
      rw [h, hreached] at hd
      exact lt_irrefl i hd
    rw [Function.update_of_ne fun heq => hne (rank_injOn hk hi heq), hg k hk hd]

/-- In the end every position is at its rank, and every position of the output was written once. -/
theorem all (h : Delivered blockSize n key value (progress blockSize n (Finset.range numBlocks)) output written)
    (hsize : 0 < blockSize) (hcover : n ≤ numBlocks * blockSize) :
    Placed key n value output ∧ written.Perm (List.range n) := by
  obtain ⟨⟨g, houtput, hg⟩, hwritten⟩ := h
  have hall : ∀ k < n, k < progress blockSize n (Finset.range numBlocks) (k / blockSize) := fun k hk =>
    progress_all hcover hsize hk
  exact ⟨⟨g, houtput, fun k hk => hg k hk (hall k hk)⟩, hwritten.perm hall⟩

end Delivered

end Primitives

end ToggleTree
