import ToggleTree.Checked.Sort
import ToggleTree.Primitives.RandomPermutation

/-!
# Sample sort

The blocks of the range are sorted and distributed to buckets, whose bounds are elements of a
sample; then the buckets are sorted. An element that is equivalent to a splitter goes to the
bucket behind it, so a bucket between two equivalent splitters holds only equivalent elements and
need not be sorted.
-/

namespace ToggleTree

open Checked StableRank

namespace Primitives

section Code

variable {T : Type}

/-- A power of two about the square root. -/
def sqrt (x : ℕ) : ℕ := 1 <<< (log2 (x - 1) / 2)

/-- The number of buckets for `n` elements of `sizeofT` bytes. -/
def numSortBuckets (n sizeofT numWorkers : ℕ) : ℕ :=
  numWorkers * max 1 (sqrt (n * sizeofT % 2 ^ 64 / 128) / numWorkers)

/-- Skip the splitters that are less than the value. -/
def advance (less : T → T → Bool) (splitters : Array T) (value : T) (bucket : ℕ) : ℕ :=
  if h : bucket < splitters.size then
    if less splitters[bucket] value then advance less splitters value (bucket + 1) else bucket
  else bucket
termination_by splitters.size - bucket

/-- The bucket of a value when the splitters before `bucket` have been skipped. -/
def placeOf (less : T → T → Bool) (splitters : Array T) (value : T) (bucket : ℕ) : ℕ :=
  if h : bucket < splitters.size then if !less value splitters[bucket] then bucket + 1 else bucket else bucket

/-- A difference that does not wrap around. -/
def subtract (x y : ℕ) : Option ℕ := if y ≤ x then some (x - y) else none

/-- Sort a block, copy it to the buffer and count its buckets. -/
def sortBlock (less : T → T → Bool) (sort : List T → List T) (splitters : Array T)
    (numBuckets blockSize n block : ℕ)
    (state : Array T × Array T × Array ℕ) : Option (Array T × Array T × Array ℕ) := do
  let (range, buffer, counts) := state
  let range ← sortRange sort range (firstOf blockSize block) (lastOf blockSize n block)
  let (buffer, counts, _) ← loop (firstOf blockSize block) (lastOf blockSize n block) (buffer, counts, 0)
    fun i (buffer, counts, bucket) => do
      let value ← range[i]?
      let buffer ← write buffer i value
      let bucket := advance less splitters value bucket
      let counts ← increment counts (block * numBuckets + placeOf less splitters value bucket)
      some (buffer, counts, bucket)
  some (range, buffer, counts)

/-- Copy the elements of one bucket; the positions that are written are recorded. -/
def copyRun (buffer : Array T) (source destination count : ℕ) (state : Array T × List ℕ) :
    Option (Array T × List ℕ) :=
  loop 0 count state fun i (range, written) => do
    let x ← buffer[source + i]?
    let range ← write range (destination + i) x
    some (range, (destination + i) :: written)

/-- Where the elements of a bucket that come from one block end. -/
def nextDestination (numBuckets numBlocks : ℕ) (bucketOffsets counts : Array ℕ) (block bucket : ℕ) : Option ℕ :=
  if block + 1 < numBlocks then counts[(block + 1) * numBuckets + bucket]? else bucketOffsets[bucket + 1]?

/-- Copy a block to the buckets. -/
def deliverBlock (numBuckets numBlocks blockSize : ℕ) (bucketOffsets counts : Array ℕ)
    (buffer : Array T) (block : ℕ) (state : Array T × List ℕ) : Option (Array T × List ℕ) := do
  let (_, state) ← loop 0 numBuckets (firstOf blockSize block, state) fun bucket (source, state) => do
    let destination ← counts[block * numBuckets + bucket]?
    let next ← nextDestination numBuckets numBlocks bucketOffsets counts block bucket
    let count ← subtract next destination
    let state ← copyRun buffer source destination count state
    some (source + count, state)
  some state

/-- The bucket lies between two equivalent splitters. -/
def allEqual (less : T → T → Bool) (splitters : Array T) (bucket : ℕ) : Bool :=
  if h : 0 < bucket ∧ bucket < splitters.size then
    !less splitters[bucket - 1] splitters[bucket] && !less splitters[bucket] splitters[bucket - 1]
  else false

/-- Sort a bucket unless its elements are equivalent. -/
def sortBucket (less : T → T → Bool) (sort : List T → List T) (splitters : Array T)
    (bucketOffsets : Array ℕ) (bucket : ℕ) (range : Array T) : Option (Array T) :=
  if allEqual less splitters bucket then some range
  else do
    let first ← bucketOffsets[bucket]?
    let last ← bucketOffsets[bucket + 1]?
    sortRange sort range first last

/-- The sorted range, and the positions that the scatter phase wrote. `sizeofT` is the size of an element in bytes
and `uninit` is what fresh memory holds. -/
def sampleSort (less : T → T → Bool) (sort : List T → List T) (sizeofT : ℕ) (uninit : ℕ → T) (numWorkers : ℕ)
    (schedules : ℕ → Schedule) (range : Array T) : Option (Array T × List ℕ) :=
  let n := range.size
  if n < 8192 then do
    let range ← sortRange sort range 0 n
    some (range, [])
  else do
    let numBuckets := numSortBuckets n sizeofT numWorkers
    let blockSize := ceilDiv n numBuckets
    let numBlocks := ceilDiv n blockSize
    let numSamples := min n (numBuckets * 4 % 2 ^ 64)
    let sample ← build numSamples fun i => range[(hash64 (BitVec.ofNat 64 i)).toNat % n]?
    let sample ← sortRange sort sample 0 numSamples
    let splitters ← build (numBuckets - 1) fun i =>
      sample[min ((i + 1) * numSamples % 2 ^ 64 / numBuckets) (numSamples - 1)]?
    let buffer := Array.ofFn fun i : Fin n => uninit i
    let counts := Array.replicate (numBlocks * numBuckets % 2 ^ 64) 0
    let (range, buffer, counts) ← parallelLoop (schedules 0) numBlocks (range, buffer, counts)
      (sortBlock less sort splitters numBuckets blockSize n)
    let (bucketOffsets, counts) ← histogram (schedules 1) (schedules 2) numBuckets numBlocks counts
    let (range, written) ← parallelLoop (schedules 3) numBlocks (range, [])
      (deliverBlock numBuckets numBlocks blockSize bucketOffsets counts buffer)
    let range ← parallelLoop (schedules 4) numBuckets range (sortBucket less sort splitters bucketOffsets)
    some (range, written)

end Code

section Splitters

variable {T : Type} {less : T → T → Bool} {splitters : Array T} {x y : T} {b L L' : ℕ}

/-- `L` is the first splitter that is not less than `x`. -/
structure IsLower (less : T → T → Bool) (splitters : Array T) (x : T) (L : ℕ) : Prop where
  le : L ≤ splitters.size
  below : ∀ j (h : j < splitters.size), j < L → less splitters[j] x = true
  stop : ∀ h : L < splitters.size, less splitters[L] x = false

/-- The lower bound is unique. -/
theorem IsLower.eq (h : IsLower less splitters x L) (h' : IsLower less splitters x L') : L = L' := by
  by_contra hne
  rcases Nat.lt_or_gt_of_ne hne with hlt | hlt
  · have := h'.below L (hlt.trans_le h'.le) hlt
    rw [h.stop] at this
    exact Bool.false_ne_true this
  · have := h.below L' (hlt.trans_le h.le) hlt
    rw [h'.stop] at this
    exact Bool.false_ne_true this

/-- The loop stops at the first splitter that is not less. -/
theorem isLower_advance (hb : b ≤ splitters.size)
    (hbelow : ∀ j (h : j < splitters.size), j < b → less splitters[j] x = true) :
    IsLower less splitters x (advance less splitters x b) := by
  fun_induction advance less splitters x b with
  | case1 b hlt hless ih =>
    refine ih hlt fun j hj hjb => ?_
    rcases Nat.lt_succ_iff_lt_or_eq.mp hjb with hjb | rfl
    · exact hbelow j hj hjb
    · exact hless
  | case2 b hlt hless => exact ⟨hlt.le, hbelow, fun _ => by simpa using hless⟩
  | case3 b hge => exact ⟨hb, hbelow, fun h => absurd h hge⟩

/-- The bucket of an element. -/
def bucketFor (less : T → T → Bool) (splitters : Array T) (x : T) : ℕ :=
  placeOf less splitters x (advance less splitters x 0)

/-- The search from the start finds the lower bound. -/
theorem isLower_advance_zero (x : T) : IsLower less splitters x (advance less splitters x 0) :=
  isLower_advance (Nat.zero_le _) fun _ _ h => absurd h (Nat.not_lt_zero _)

/-- Where the search starts cannot be seen. -/
theorem placeOf_advance (hb : b ≤ splitters.size)
    (hbelow : ∀ j (h : j < splitters.size), j < b → less splitters[j] x = true) :
    placeOf less splitters x (advance less splitters x b) = bucketFor less splitters x := by
  rw [bucketFor, (isLower_advance hb hbelow).eq (isLower_advance_zero x)]

/-- The bucket is in range. -/
theorem bucketFor_le (x : T) : bucketFor less splitters x ≤ splitters.size := by
  have := (@isLower_advance_zero T less splitters x).le
  rw [bucketFor, placeOf]
  split_ifs <;> omega

/-- An element either lies below its splitter, or it is equivalent to the splitter before its bucket. -/
theorem bucketFor_cases (less : T → T → Bool) (splitters : Array T) (x : T) :
    (IsLower less splitters x (bucketFor less splitters x) ∧
      ∀ h : bucketFor less splitters x < splitters.size, less x splitters[bucketFor less splitters x] = true) ∨
    ∃ (L : ℕ) (h : L < splitters.size), bucketFor less splitters x = L + 1 ∧ IsLower less splitters x L ∧
      less x splitters[L] = false := by
  have hlower := @isLower_advance_zero T less splitters x
  by_cases hlt : advance less splitters x 0 < splitters.size
  · cases hx : less x splitters[advance less splitters x 0] with
    | true =>
      have heq : bucketFor less splitters x = advance less splitters x 0 := by
        rw [bucketFor, placeOf, dif_pos hlt, hx]
        rfl
      rw [heq]
      exact Or.inl ⟨hlower, fun _ => hx⟩
    | false =>
      refine Or.inr ⟨_, hlt, ?_, hlower, hx⟩
      rw [bucketFor, placeOf, dif_pos hlt, hx]
      rfl
  · have heq : bucketFor less splitters x = advance less splitters x 0 := by
      rw [bucketFor, placeOf, dif_neg hlt]
    rw [heq]
    exact Or.inl ⟨hlower, fun h => absurd h hlt⟩

/-- The buckets respect the order. -/
theorem bucketFor_mono (hless : StrictWeakOrder less) (h : less y x = false) :
    bucketFor less splitters x ≤ bucketFor less splitters y := by
  have hle : ∀ {L L'}, IsLower less splitters x L → IsLower less splitters y L' → L ≤ L' := by
    intro L L' hL hL'
    by_contra hgt
    have hlt : L' < splitters.size := by have := hL.le; omega
    have hx := hL.below L' hlt (by omega)
    have hy := hless.less_of_less_of_not hx h
    rw [hL'.stop] at hy
    exact Bool.false_ne_true hy
  rcases bucketFor_cases less splitters x with ⟨hx, -⟩ | ⟨L, hL, hbx, hx, hxL⟩
  · rcases bucketFor_cases less splitters y with ⟨hy, -⟩ | ⟨L', hL', hby, hy, -⟩
    · exact hle hx hy
    · have := hle hx hy
      omega
  · rcases bucketFor_cases less splitters y with ⟨hy, hyb⟩ | ⟨L', hL', hby, hy, -⟩
    · rw [hbx]
      have hLy := hle hx hy
      by_contra hgt
      obtain heq : bucketFor less splitters y = L := by omega
      have hyL : less y splitters[L] = true := by
        have := hyb (by omega)
        simpa only [heq] using this
      have hxL' := hless.less_of_not_of_less h hyL
      rw [hxL] at hxL'
      exact Bool.false_ne_true hxL'
    · have := hle hx hy
      omega

/-- The elements of a bucket between two equivalent splitters are equivalent to them. -/
theorem less_of_allEqual (hless : StrictWeakOrder less) (hall : allEqual less splitters b = true)
    (hx : bucketFor less splitters x = b) (hy : bucketFor less splitters y = b) : less y x = false := by
  rw [allEqual] at hall
  split at hall
  case isFalse => exact absurd hall Bool.false_ne_true
  case isTrue hb =>
    obtain ⟨h₁, h₂⟩ : less splitters[b - 1] splitters[b] = false ∧
      less splitters[b] splitters[b - 1] = false := by
      simpa using hall
    have hequiv : ∀ z, bucketFor less splitters z = b →
        less splitters[b - 1] z = false ∧ less z splitters[b - 1] = false := by
      intro z hz
      rcases bucketFor_cases less splitters z with ⟨hlower, hbelow⟩ | ⟨L, hL, hbz, hlower, hzL⟩
      · rw [hz] at hlower
        have hprev := hlower.below (b - 1) (by omega) (by omega)
        have hnext : less z splitters[b] = true := by
          have := hbelow (by omega)
          simpa only [hz] using this
        have := hless.trans _ _ _ hprev hnext
        rw [h₁] at this
        exact absurd this Bool.false_ne_true
      · obtain rfl : L = b - 1 := by omega
        exact ⟨hlower.stop hL, hzL⟩
    exact hless.not_less_trans (hequiv x hx).1 (hequiv y hy).2

end Splitters

section Phases

variable {T : Type} {less : T → T → Bool} {sort : List T → List T} {splitters : Array T}
  {n numBuckets numBlocks blockSize : ℕ} {f R : ℕ → T} {key : ℕ → ℕ}

/-- The elements after every block has been sorted. -/
def blockSorted (sort : List T → List T) (f : ℕ → T) (blockSize n k : ℕ) : T :=
  sortedOn sort f (blockStart blockSize n (k / blockSize)) (blockStart blockSize n (k / blockSize + 1)) k

/-- The positions of a block. -/
theorem mem_blockStart {block i : ℕ} (hsize : 0 < blockSize) :
    (blockStart blockSize n block ≤ i ∧ i < blockStart blockSize n (block + 1)) ↔
    i < n ∧ i / blockSize = block := by
  rw [← mem_block hsize, blockStart, blockStart, Nat.succ_mul]
  omega

/-- The elements are ordered in every block. -/
theorem blockSorted_sorted (hsort : Sorts less sort) (hsize : 0 < blockSize) {i j : ℕ} (hij : i < j) (hj : j < n)
    (hblock : i / blockSize = j / blockSize) :
    less (blockSorted sort f blockSize n j) (blockSorted sort f blockSize n i) = false := by
  obtain ⟨hi, -⟩ := (mem_blockStart hsize).mpr ⟨hij.trans hj, rfl⟩
  obtain ⟨-, hj'⟩ := (mem_blockStart hsize).mpr ⟨hj, rfl⟩
  rw [blockSorted, blockSorted, hblock]
  rw [hblock] at hi
  exact sortedOn_sorted hsort hi hij hj'

/-- The blocks `done` are sorted, copied and counted. -/
structure Distributing (less : T → T → Bool) (sort : List T → List T) (splitters : Array T) (f : ℕ → T)
    (numBuckets numBlocks blockSize n : ℕ) (done : Finset ℕ) (state : Array T × Array T × Array ℕ) : Prop where
  range : ∃ r, Contents state.1 n r ∧ ((List.range n).map r).Perm ((List.range n).map f) ∧
    ∀ k < n, r k = if k / blockSize ∈ done then blockSorted sort f blockSize n k else f k
  buffer : ∃ h, Contents state.2.1 n h ∧
    ∀ k < n, k < progress blockSize n done (k / blockSize) → h k = blockSorted sort f blockSize n k
  counts : Counting numBuckets numBlocks blockSize n
    (fun k => bucketFor less splitters (blockSorted sort f blockSize n k))
    (progress blockSize n done) state.2.2

/-- The positions of `block` before `i` are copied and counted. -/
structure Copying (less : T → T → Bool) (splitters : Array T) (R : ℕ → T)
    (numBuckets numBlocks blockSize n block : ℕ)
    (reached : ℕ → ℕ) (i : ℕ) (state : Array T × Array ℕ × ℕ) : Prop where
  buffer : ∃ h, Contents state.1 n h ∧ ∀ k < n, k < Function.update reached block i (k / blockSize) → h k = R k
  counts : Counting numBuckets numBlocks blockSize n (fun k => bucketFor less splitters (R k))
    (Function.update reached block i) state.2.1
  le : state.2.2 ≤ splitters.size
  below : ∀ k < n, k / blockSize = block → i ≤ k → ∀ j (h : j < splitters.size), j < state.2.2 →
    less splitters[j] (R k) = true

/-- A position is copied into its bucket. -/
theorem Copying.step (hless : StrictWeakOrder less) (hsplitters : splitters.size + 1 = numBuckets)
    {reached : ℕ → ℕ} {i : ℕ}
    {range buffer : Array T} {counts : Array ℕ} {bucket : ℕ} (hsize : 0 < blockSize)
    (hsorted : ∀ j < n, i < j → j / blockSize = i / blockSize → less (R j) (R i) = false)
    (hs : Copying less splitters R numBuckets numBlocks blockSize n (i / blockSize) reached i
      (buffer, counts, bucket))
    (hi : i < n) (hblock : i / blockSize < numBlocks) (hrange : range[i]? = some (R i)) :
    Returns (Copying less splitters R numBuckets numBlocks blockSize n (i / blockSize) reached (i + 1)) (do
      let value ← range[i]?
      let buffer ← write buffer i value
      let bucket := advance less splitters value bucket
      let counts ← increment counts (i / blockSize * numBuckets + placeOf less splitters value bucket)
      some (buffer, counts, bucket)) := by
  obtain ⟨⟨h, hbuffer, hh⟩, hcounts, hle, hbelow⟩ := hs
  have hnow := hbelow i hi rfl le_rfl
  have hlower : IsLower less splitters (R i) (advance less splitters (R i) bucket) := isLower_advance hle hnow
  obtain ⟨buffer', hwrite, hbuffer'⟩ := hbuffer.write hi (R i)
  refine Returns.bind_eq hrange (Returns.bind_eq hwrite ?_)
  dsimp only
  rw [placeOf_advance hle hnow]
  have hkey : bucketFor less splitters (R i) < numBuckets := by
    have : bucketFor less splitters (R i) ≤ splitters.size := bucketFor_le (R i)
    omega
  have hstart : blockStart blockSize n (i / blockSize) ≤ i := ((mem_blockStart hsize).mpr ⟨hi, rfl⟩).1
  refine (hcounts.increment hblock hstart (Function.update_self _ _ _) hkey).bind fun counts' hcounts' => ?_
  rw [Function.update_idem] at hcounts'
  refine Returns.pure ⟨⟨_, hbuffer', fun k hk hd => ?_⟩, hcounts', hlower.le, fun k hk hkb hik j hj hjb => ?_⟩
  · by_cases hki : k = i
    · rw [hki, Function.update_self]
    · rw [Function.update_of_ne hki]
      refine hh k hk ?_
      by_cases hkb : k / blockSize = i / blockSize
      · rw [hkb, Function.update_self] at hd ⊢
        omega
      · rwa [Function.update_of_ne hkb] at hd ⊢
  · -- the splitters that are less than one element are less than the later ones
    exact hless.less_of_less_of_not (hlower.below j hj hjb) (hsorted k hk (by omega) hkb)

/-- One block of the first phase. -/
theorem returns_sortBlock (hless : StrictWeakOrder less) (hsort : Sorts less sort)
    (hsplitters : splitters.size + 1 = numBuckets)
    (hsize : 0 < blockSize) (hfit : numBlocks * blockSize < 2 ^ 64)
    (hstarts : ∀ block < numBlocks, block * blockSize ≤ n)
    {done : Finset ℕ} {block : ℕ} {state : Array T × Array T × Array ℕ} (hblock : block < numBlocks)
    (hnot : block ∉ done)
    (hs : Distributing less sort splitters f numBuckets numBlocks blockSize n done state) :
    Returns (Distributing less sort splitters f numBuckets numBlocks blockSize n (insert block done))
      (sortBlock less sort splitters numBuckets blockSize n block state) := by
  obtain ⟨range, buffer, counts⟩ := state
  obtain ⟨⟨r, hrange, hperm, hr⟩, ⟨h, hbuffer, hh⟩, hcounts⟩ := hs
  have hend : (block + 1) * blockSize ≤ numBlocks * blockSize := Nat.mul_le_mul_right _ hblock
  have hstart : block * blockSize < 2 ^ 64 :=
    (Nat.mul_le_mul_right _ (Nat.le_succ block)).trans_lt (hend.trans_lt hfit)
  have hfirst : firstOf blockSize block = blockStart blockSize n block := firstOf_eq hstart (hstarts block hblock)
  have hlast : lastOf blockSize n block = blockStart blockSize n (block + 1) := lastOf_eq (hend.trans_lt hfit)
  have hbn : blockStart blockSize n (block + 1) ≤ n := min_le_right _ _
  obtain ⟨range', heq, hrange'⟩ := hrange.sortRange hsort (blockStart_mono block) hbn
  have hr' : ∀ k < n, sortedOn sort r (blockStart blockSize n block) (blockStart blockSize n (block + 1)) k =
      if k / blockSize ∈ insert block done then blockSorted sort f blockSize n k else f k := by
    intro k hk
    by_cases hkb : k / blockSize = block
    · obtain ⟨hk₁, hk₂⟩ := (mem_blockStart hsize).mpr ⟨hk, hkb⟩
      rw [if_pos (Finset.mem_insert.mpr (Or.inl hkb)), blockSorted, hkb]
      refine sortedOn_congr (fun p hp hp' => ?_) hk₁ hk₂
      obtain ⟨hpn, hpb⟩ := (mem_blockStart hsize).mp ⟨hp, hp'⟩
      rw [hr p hpn, hpb, if_neg hnot]
    · have hout : k < blockStart blockSize n block ∨ blockStart blockSize n (block + 1) ≤ k := by
        by_contra hin
        have hmem : blockStart blockSize n block ≤ k ∧ k < blockStart blockSize n (block + 1) := by omega
        exact hkb ((mem_blockStart hsize).mp hmem).2
      rw [sortedOn_outside hout, hr k hk]
      exact if_congr (by rw [Finset.mem_insert, or_iff_right hkb]) rfl rfl
  unfold sortBlock
  dsimp only
  refine Returns.bind_eq (by rw [hfirst, hlast]; exact heq) ?_
  refine (Returns.block (I := Copying less splitters
    (blockSorted sort f blockSize n) numBuckets numBlocks blockSize n block
    (progress blockSize n done)) hsize (hend.trans_lt hfit) ⟨⟨h, hbuffer, ?_⟩, ?_, Nat.zero_le _, ?_⟩ ?_).bind ?_
  · rwa [progress_start hnot]
  · rwa [progress_start hnot]
  · exact fun _ _ _ _ _ _ hj => absurd hj (Nat.not_lt_zero _)
  · rintro i ⟨buffer, counts, bucket⟩ hi rfl hs
    refine hs.step hless hsplitters hsize (fun j hj hij hb =>
      blockSorted_sorted hsort hsize hij hj hb.symm) hi hblock ?_
    rw [hrange'.get i hi, hr' i hi, if_pos (Finset.mem_insert_self _ _)]
  · rintro ⟨buffer, counts, bucket⟩ ⟨hbuffer', hcounts', -, -⟩
    rw [progress_insert] at hbuffer' hcounts'
    exact Returns.pure ⟨⟨_, hrange', (sortedOn_perm hsort (blockStart_mono block) hbn).trans hperm, hr'⟩,
      hbuffer', hcounts'⟩

/-- The elements of one bucket are copied to their ranks. -/
theorem returns_copyRun {buffer : Array T} {reached : ℕ → ℕ} {state : Array T × List ℕ} {block bucket e : ℕ}
    (hsize : 0 < blockSize) (hbuffer : Contents buffer n R) (he : e = blockStart blockSize n (block + 1))
    (hmono : ∀ i j, blockStart blockSize n block ≤ i → i ≤ j → j < e → key i ≤ key j)
    (hs : Delivered blockSize n key R
      (Function.update reached block (split key (blockStart blockSize n block) e bucket))
      state.1 state.2) :
    Returns (fun state => Delivered blockSize n key R
        (Function.update reached block (split key (blockStart blockSize n block) e (bucket + 1))) state.1 state.2)
      (copyRun buffer (split key (blockStart blockSize n block) e bucket)
        (first key n bucket + occurrences key bucket (blockStart blockSize n block))
        (occurrences key bucket e - occurrences key bucket (blockStart blockSize n block)) state) := by
  have hse : blockStart blockSize n block ≤ e := he ▸ blockStart_mono block
  have hsucc : split key (blockStart blockSize n block) e (bucket + 1) =
    split key (blockStart blockSize n block) e bucket +
      (occurrences key bucket e - occurrences key bucket (blockStart blockSize n block)) := split_succ hse bucket
  have hle : split key (blockStart blockSize n block) e (bucket + 1) ≤ e := split_le hse (bucket + 1)
  refine (Returns.loop (I := fun i state => Delivered blockSize n key R
    (Function.update reached block (split key (blockStart blockSize n block) e bucket + i)) state.1 state.2)
    (Nat.zero_le _) hs ?_).mono ?_
  · rintro i ⟨range, written⟩ - hi hs
    generalize hk : split key (blockStart blockSize n block) e bucket + i = k at hs
    have hke : k < e := by omega
    have hstart : blockStart blockSize n block ≤ k := hk ▸ (Nat.le_add_right _ _).trans (Nat.le_add_right _ _)
    obtain ⟨hkn, hkb⟩ := (mem_blockStart hsize).mp ⟨hstart, he ▸ hke⟩
    have hkey : key k = bucket := by
      have h₁ : k < split key (blockStart blockSize n block) e (bucket + 1) ↔ key k < bucket + 1 :=
        lt_split_iff hmono hstart hke
      have h₂ : k < split key (blockStart blockSize n block) e bucket ↔ key k < bucket :=
        lt_split_iff hmono hstart hke
      omega
    have hcount : occurrences key bucket k = occurrences key bucket (blockStart blockSize n block) + i := by
      have hi' :
        split key (blockStart blockSize n block) e bucket + i ≤ split key (blockStart blockSize n block) e
          (bucket + 1) := by
        omega
      have := count_split_add hse hmono hi'
      rwa [hk] at this
    have hrank : first key n bucket + occurrences key bucket (blockStart blockSize n block) + i =
      rank key n k := by
      rw [rank_eq, hkey, hcount, Nat.add_assoc]
    subst hkb
    obtain ⟨range', hwrite, hs'⟩ := hs.write hkn (Function.update_self _ _ _)
    rw [Function.update_idem] at hs'
    refine Returns.bind_eq (hbuffer.get k hkn) ?_
    rw [hrank]
    refine Returns.bind_eq hwrite (Returns.pure ?_)
    rwa [← Nat.add_assoc, hk]
  · intro state hs
    rwa [hsucc]

/-- One block of the scatter phase. -/
theorem returns_deliverBlock {buffer : Array T} {bucketOffsets counts : Array ℕ} {c : ℕ → ℕ}
    {done : Finset ℕ} {block : ℕ}
    {state : Array T × List ℕ} (hsize : 0 < blockSize) (hfit : numBlocks * blockSize < 2 ^ 64)
    (hcover : n ≤ numBlocks * blockSize) (hstarts : ∀ block < numBlocks, block * blockSize ≤ n)
    (hbuffer : Contents buffer n R) (hkeys : ∀ i < n, key i < numBuckets)
    (hmono : ∀ i j, i ≤ j → j < n → i / blockSize = j / blockSize → key i ≤ key j)
    (hc : CountsBlocks numBuckets numBlocks blockSize n key c)
    (hoffsets : Contents bucketOffsets (numBuckets + 1) (first key n))
    (hcounts : Contents counts (numBlocks * numBuckets) (destinationOf numBuckets numBlocks c))
    (hblock : block < numBlocks) (hnot : block ∉ done)
    (hs : Delivered blockSize n key R (progress blockSize n done) state.1 state.2) :
    Returns (fun state => Delivered blockSize n key R (progress blockSize n (insert block done)) state.1 state.2)
      (deliverBlock numBuckets numBlocks blockSize bucketOffsets counts buffer block state) := by
  have hend : (block + 1) * blockSize ≤ numBlocks * blockSize := Nat.mul_le_mul_right _ hblock
  have hstart : block * blockSize < 2 ^ 64 :=
    (Nat.mul_le_mul_right _ (Nat.le_succ block)).trans_lt (hend.trans_lt hfit)
  have hfirst : firstOf blockSize block = blockStart blockSize n block := firstOf_eq hstart (hstarts block hblock)
  have hse : blockStart blockSize n block ≤ blockStart blockSize n (block + 1) := blockStart_mono block
  have hmono' : ∀ i j, blockStart blockSize n block ≤ i → i ≤ j → j < blockStart blockSize n (block + 1) →
    key i ≤ key j := by
    intro i j hi hij hj
    obtain ⟨-, hib⟩ := (mem_blockStart hsize).mp ⟨hi, hij.trans_lt hj⟩
    obtain ⟨hjn, hjb⟩ := (mem_blockStart hsize).mp ⟨hi.trans hij, hj⟩
    exact hmono i j hij hjn (hib.trans hjb.symm)
  have hnext : ∀ bucket < numBuckets, nextDestination numBuckets numBlocks bucketOffsets counts block bucket =
      some (first key n bucket + occurrences key bucket (blockStart blockSize n (block + 1))) := by
    intro bucket hbucket
    unfold nextDestination
    split_ifs with hlast
    · rw [hcounts.get _ (entry_lt hlast hbucket), hc.destinationOf hcover hlast hbucket]
    · obtain heq : block + 1 = numBlocks := by omega
      rw [hoffsets.get _ (by omega), first_succ, heq, blockStart_last hcover]
      rfl
  have hmatrix : ∀ bucket < numBuckets, counts[block * numBuckets + bucket]? =
      some (first key n bucket + occurrences key bucket (blockStart blockSize n block)) := by
    intro bucket hbucket
    rw [hcounts.get _ (entry_lt hblock hbucket), hc.destinationOf hcover hblock hbucket]
  rw [← progress_start hnot] at hs
  unfold deliverBlock
  refine (Returns.loop (I := fun bucket (r : ℕ × Array T × List ℕ) =>
    r.1 = split key (blockStart blockSize n block) (blockStart blockSize n (block + 1)) bucket ∧
    Delivered blockSize n key R (Function.update (progress blockSize n done) block r.1) r.2.1 r.2.2)
    (Nat.zero_le numBuckets) ⟨by rw [split_zero]; exact hfirst, by rw [hfirst]; exact hs⟩ ?_).bind ?_
  · rintro bucket ⟨source, state⟩ - hbucket ⟨hsource, hs⟩
    dsimp only at hsource hs ⊢
    have hocc : occurrences key bucket (blockStart blockSize n block) ≤
        occurrences key bucket (blockStart blockSize n (block + 1)) := occurrences_mono bucket hse
    refine Returns.bind_eq (hmatrix bucket hbucket) (Returns.bind_eq (hnext bucket hbucket) ?_)
    refine Returns.bind_eq (if_pos (Nat.add_le_add_left hocc _)) ?_
    rw [Nat.add_sub_add_left]
    rw [hsource] at hs ⊢
    refine (returns_copyRun hsize hbuffer rfl hmono' hs).bind fun state hs' => Returns.pure ⟨?_, ?_⟩
    · exact (split_succ hse bucket).symm
    · rwa [split_succ hse bucket] at hs'
  · rintro ⟨source, state⟩ ⟨hsource, hs⟩
    dsimp only at hsource hs
    rw [hsource, split_all hse fun i hi => hkeys i (hi.trans_le (min_le_right _ _)), progress_insert] at hs
    exact Returns.pure hs

/-- Every element is in its bucket, and the buckets `done` are sorted. -/
structure Sorting (less : T → T → Bool) (splitters : Array T) (f : ℕ → T) (key : ℕ → ℕ) (numBuckets n : ℕ)
    (done : Finset ℕ) (g : ℕ → T) : Prop where
  perm : ((List.range n).map g).Perm ((List.range n).map f)
  bucket : ∀ b < numBuckets, ∀ p, first key n b ≤ p → p < first key n (b + 1) → bucketFor less splitters (g p) = b
  sorted : ∀ b ∈ done, ∀ p q, first key n b ≤ p → p < q → q < first key n (b + 1) → less (g q) (g p) = false

/-- The elements at their ranks are in their buckets. -/
theorem Sorting.start {g : ℕ → T} (hperm : ((List.range n).map R).Perm ((List.range n).map f))
    (hkey : ∀ i < n, bucketFor less splitters (R i) = key i) (hg : ∀ i < n, g (rank key n i) = R i) :
    Sorting less splitters f key numBuckets n ∅ g := by
  refine ⟨(map_perm hg).trans hperm, fun b _ p hp hp' => ?_, fun b hb => (Finset.notMem_empty b hb).elim⟩
  obtain ⟨i, hi, rfl⟩ : ∃ i < n, rank key n i = p := exists_rank (hp'.trans_le (first_le _))
  rw [hg i hi, hkey i hi]
  exact key_of_rank hi hp hp'

/-- One bucket is sorted, or has nothing to sort. -/
theorem returns_sortBucket (hless : StrictWeakOrder less) (hsort : Sorts less sort)
    {bucketOffsets : Array ℕ} {range : Array T}
    {g : ℕ → T} {done : Finset ℕ} {bucket : ℕ} (hoffsets : Contents bucketOffsets (numBuckets + 1) (first key n))
    (hbucket : bucket < numBuckets) (hrange : Contents range n g)
    (hs : Sorting less splitters f key numBuckets n done g) :
    Returns (fun range => ∃ g, Contents range n g ∧
      Sorting less splitters f key numBuckets n (insert bucket done) g)
      (sortBucket less sort splitters bucketOffsets bucket range) := by
  have hle : first key n bucket ≤ first key n (bucket + 1) := first_mono (Nat.le_succ bucket)
  have hn : first key n (bucket + 1) ≤ n := first_le _
  unfold sortBucket
  by_cases hall : allEqual less splitters bucket = true
  · rw [if_pos hall]
    refine Returns.pure ⟨g, hrange, hs.perm, hs.bucket, fun b hb p q hp hpq hq => ?_⟩
    rcases Finset.mem_insert.mp hb with rfl | hb
    · exact less_of_allEqual hless hall (hs.bucket b hbucket p hp (hpq.trans hq))
        (hs.bucket b hbucket q (hp.trans hpq.le) hq)
    · exact hs.sorted b hb p q hp hpq hq
  · rw [if_neg hall]
    refine Returns.bind_eq (hoffsets.get bucket (by omega))
      (Returns.bind_eq (hoffsets.get (bucket + 1) (by omega)) ?_)
    obtain ⟨range', heq, hrange'⟩ := hrange.sortRange hsort hle hn
    refine Returns.of_eq heq ⟨_, hrange', (sortedOn_perm hsort hle hn).trans hs.perm, fun b hb p hp hp' => ?_,
      fun b hb p q hp hpq hq => ?_⟩
    · rcases eq_or_ne b bucket with rfl | hne
      · obtain ⟨q, hq, hq', heq⟩ := exists_sortedOn (f := g) hsort hp hp'
        rw [heq]
        exact hs.bucket b hb q hq hq'
      · rw [sortedOn_outside (interval_disjoint hne hp hp')]
        exact hs.bucket b hb p hp hp'
    · rcases eq_or_ne b bucket with rfl | hne
      · exact sortedOn_sorted hsort hp hpq hq
      · rw [sortedOn_outside (interval_disjoint hne hp (hpq.trans hq)),
          sortedOn_outside (interval_disjoint hne (hp.trans hpq.le) hq)]
        exact hs.sorted b ((Finset.mem_insert.mp hb).resolve_left hne) p q hp hpq hq

/-- When all buckets are sorted the range is sorted. -/
theorem Sorting.all (hless : StrictWeakOrder less) {g : ℕ → T} (hkeys : ∀ i < n, key i < numBuckets)
    (hs : Sorting less splitters f key numBuckets n (Finset.range numBuckets) g) :
    Sorted less ((List.range n).map g) := by
  refine List.pairwise_map.mpr (List.pairwise_lt_range.imp_of_mem fun {p q} hp hq hpq => ?_)
  obtain ⟨i, hi, rfl⟩ : ∃ i < n, rank key n i = p := exists_rank (List.mem_range.mp hp)
  obtain ⟨j, hj, rfl⟩ : ∃ j < n, rank key n j = q := exists_rank (List.mem_range.mp hq)
  have hbi := hs.bucket _ (hkeys i hi) _ first_le_rank (rank_lt_first hi)
  have hbj := hs.bucket _ (hkeys j hj) _ first_le_rank (rank_lt_first hj)
  rcases lt_trichotomy (key i) (key j) with hlt | heq | hgt
  · by_contra hji
    have hle : bucketFor less splitters (g (rank key n j)) ≤ bucketFor less splitters (g (rank key n i)) :=
      bucketFor_mono hless (hless.asymm (by simpa using hji))
    omega
  · refine hs.sorted _ (Finset.mem_range.mpr (hkeys i hi)) _ _ first_le_rank hpq ?_
    rw [heq]
    exact rank_lt_first hj
  · have h₁ : rank key n j < first key n (key j + 1) := rank_lt_first hj
    have h₂ : first key n (key j + 1) ≤ first key n (key i) := first_mono hgt
    have h₃ : first key n (key i) ≤ rank key n i := first_le_rank
    omega

end Phases

section SampleSort

variable {T : Type} {less : T → T → Bool} {sort : List T → List T} {n sizeofT numWorkers : ℕ}

/-- There is at least one bucket. -/
theorem numSortBuckets_pos (hworkers : 1 ≤ numWorkers) : 0 < numSortBuckets n sizeofT numWorkers :=
  Nat.mul_pos hworkers (lt_max_of_lt_left Nat.one_pos)

/-- The number of buckets fits into 32 bits. -/
theorem numSortBuckets_lt (hworkers : numWorkers < 2 ^ 32) : numSortBuckets n sizeofT numWorkers < 2 ^ 32 := by
  have hsqrt : sqrt (n * sizeofT % 2 ^ 64 / 128) ≤ 2 ^ 30 := by
    have hsize : log2 (n * sizeofT % 2 ^ 64 / 128 - 1) ≤ 60 := Nat.size_le.mpr (by omega)
    rw [sqrt, Nat.one_shiftLeft]
    exact Nat.pow_le_pow_right (by omega) (by omega)
  have hmul : numWorkers * (sqrt (n * sizeofT % 2 ^ 64 / 128) / numWorkers) ≤ sqrt (n * sizeofT % 2 ^ 64 / 128) :=
    Nat.mul_div_le _ _
  rw [numSortBuckets]
  rcases max_cases 1 (sqrt (n * sizeofT % 2 ^ 64 / 128) / numWorkers) with ⟨heq, -⟩ | ⟨heq, -⟩
  · rw [heq]
    omega
  · rw [heq]
    omega

/-- The number of blocks and their size. -/
theorem numBlocks_spec {numBuckets : ℕ} (hpos : 0 < numBuckets) (hlarge : 0 < n) (hn : n < 2 ^ 63)
    (hlt : numBuckets < 2 ^ 32) :
    0 < ceilDiv n numBuckets ∧ n ≤ ceilDiv n (ceilDiv n numBuckets) * ceilDiv n numBuckets ∧
      ceilDiv n (ceilDiv n numBuckets) * ceilDiv n numBuckets < 2 ^ 64 ∧
      (∀ block < ceilDiv n (ceilDiv n numBuckets), block * ceilDiv n numBuckets ≤ n) ∧
      ceilDiv n (ceilDiv n numBuckets) * numBuckets < 2 ^ 64 := by
  have hfits : n + numBuckets ≤ 2 ^ 64 := by omega
  have hsize := ceilDiv_pos hfits hpos hlarge
  have hcover := le_mul_ceilDiv hfits hpos
  have hsmall : ceilDiv n numBuckets ≤ n := by
    rw [ceilDiv_eq hfits]
    refine Nat.div_le_of_le_mul ?_
    have : n * 1 + numBuckets * 1 ≤ numBuckets * n + 1 := by nlinarith
    omega
  generalize ceilDiv n numBuckets = blockSize at *
  have hfits' : n + blockSize ≤ 2 ^ 64 := by omega
  have hcover' := le_mul_ceilDiv hfits' hsize
  have hbelow := mul_ceilDiv_lt hfits' hsize
  have hblocks : ceilDiv n blockSize ≤ numBuckets := by
    rw [ceilDiv_eq hfits', Nat.div_le_iff_le_mul_add_pred hsize]
    rw [Nat.mul_comm] at hcover
    omega
  generalize ceilDiv n blockSize = numBlocks at *
  rw [Nat.mul_comm blockSize] at hcover' hbelow
  refine ⟨hsize, hcover', by omega, fun block hblock => ?_, ?_⟩
  · have : (block + 1) * blockSize ≤ numBlocks * blockSize := Nat.mul_le_mul_right _ hblock
    rw [Nat.succ_mul] at this
    omega
  · calc numBlocks * numBuckets ≤ (2 ^ 32 - 1) * (2 ^ 32 - 1) := Nat.mul_le_mul (by omega) (by omega)
      _ < 2 ^ 64 := by norm_num

/-- Large arrays. -/
theorem returns_sampleSort (hless : StrictWeakOrder less) (hsort : Sorts less sort) (uninit f : ℕ → T)
    (schedules : ℕ → Schedule) {range : Array T} (hrange : Contents range n f) (hlarge : 8192 ≤ n)
    (hn : n < 2 ^ 63)
    (hworkers : 1 ≤ numWorkers) (hworkers' : numWorkers < 2 ^ 32) :
    Returns (fun r => (∃ g, Contents r.1 n g ∧ ((List.range n).map g).Perm ((List.range n).map f) ∧
      Sorted less ((List.range n).map g)) ∧ r.2.Perm (List.range n))
      (sampleSort less sort sizeofT uninit numWorkers schedules range) := by
  have hpos : 0 < numSortBuckets n sizeofT numWorkers := numSortBuckets_pos hworkers
  have hlt : numSortBuckets n sizeofT numWorkers < 2 ^ 32 := numSortBuckets_lt hworkers'
  obtain ⟨hsize, hcover, hfit, hstarts, hmatrix⟩ := numBlocks_spec hpos (by omega) hn hlt
  unfold sampleSort
  dsimp only
  rw [hrange.size, if_neg (by omega), Nat.mod_eq_of_lt hmatrix]
  generalize numSortBuckets n sizeofT numWorkers = numBuckets at *
  generalize ceilDiv n numBuckets = blockSize at *
  generalize ceilDiv n blockSize = numBlocks at *
  have hsamples : 0 < min n (numBuckets * 4 % 2 ^ 64) := by
    rw [Nat.mod_eq_of_lt (by omega)]
    omega
  generalize min n (numBuckets * 4 % 2 ^ 64) = numSamples at *
  -- the sample and the splitters are in bounds; which elements they are does not matter
  have hsample : ∀ i < numSamples, range[(hash64 (BitVec.ofNat 64 i)).toNat % n]? =
      some (f ((hash64 (BitVec.ofNat 64 i)).toNat % n)) := fun i _ => hrange.get _ (Nat.mod_lt _ (by omega))
  refine (Returns.build hsample).bind fun sample hsample => ?_
  obtain ⟨sample', heq, hsample'⟩ := hsample.sortRange hsort (Nat.zero_le _) le_rfl
  refine Returns.bind_eq heq ?_
  refine (Returns.build fun i _ => hsample'.get _ ((min_le_right _ _).trans_lt (by omega))).bind
    fun splitters hsplitters => ?_
  have hcount : splitters.size + 1 = numBuckets := by
    rw [hsplitters.size]
    omega
  have hkeys : ∀ i < n, bucketFor less splitters (blockSorted sort f blockSize n i) < numBuckets := fun i _ => by
    have : bucketFor less splitters (blockSorted sort f blockSize n i) ≤ splitters.size := bucketFor_le _
    omega
  -- the blocks
  refine (Returns.parallelLoop (I := Distributing less sort splitters f numBuckets numBlocks blockSize n)
    ⟨⟨f, hrange, List.Perm.refl _, fun k _ => (if_neg (Finset.notMem_empty _)).symm⟩,
      ⟨uninit, Contents.ofFn n uninit, fun k hk hd => ?_⟩, Counting.start (Contents.replicate _ 0)⟩
    fun done block s hblock hnot hs => returns_sortBlock hless hsort hcount hsize hfit hstarts hblock
      hnot hs).bind ?_
  · rw [progress, if_neg (Finset.notMem_empty _)] at hd
    have := ((mem_blockStart hsize).mpr ⟨hk, rfl⟩).1
    omega
  rintro ⟨range, buffer, counts⟩ ⟨⟨r, hrange', hperm, hr⟩, ⟨h, hbuffer, hh⟩, hcounts⟩
  obtain ⟨c, hcounts, hc⟩ := hcounts.all
  dsimp only at hrange' hbuffer hcounts ⊢
  have hbuffer' : Contents buffer n (blockSorted sort f blockSize n) :=
    hbuffer.congr fun k hk => hh k hk (progress_all hcover hsize hk)
  have hperm' : ((List.range n).map (blockSorted sort f blockSize n)).Perm ((List.range n).map f) := by
    refine List.Perm.trans (List.Perm.of_eq (List.map_congr_left fun k hk => ?_)) hperm
    have hk := List.mem_range.mp hk
    rw [hr k hk, if_pos (Finset.mem_range.mpr (block_lt hcover hk))]
  have hmono : ∀ i j, i ≤ j → j < n → i / blockSize = j / blockSize →
      bucketFor less splitters (blockSorted sort f blockSize n i) ≤ bucketFor less splitters
        (blockSorted sort f blockSize n j) := by
    intro i j hij hj hblock
    rcases hij.eq_or_lt with rfl | hlt
    · exact le_rfl
    · exact bucketFor_mono hless (blockSorted_sorted hsort hsize hlt hj hblock)
  -- the buckets
  refine (returns_histogram _ _ hcounts).bind ?_
  rintro ⟨bucketOffsets, counts⟩ ⟨hoffsets, hcounts⟩
  have hoffsets := hoffsets.congr fun b hb => hc.bucketOffset hcover (by omega)
  refine (Returns.parallelLoop (I := fun done state =>
    Delivered blockSize n _ _ (progress blockSize n done) state.1 state.2)
    (Delivered.start hsize hrange') fun done block s hblock hnot hs =>
      returns_deliverBlock hsize hfit hcover hstarts hbuffer'
      hkeys hmono hc hoffsets hcounts hblock hnot hs).bind ?_
  rintro ⟨range, written⟩ hdelivered
  obtain ⟨⟨g, hrange, hg⟩, hwritten⟩ := hdelivered.all hsize hcover
  refine (Returns.parallelLoop (I := fun done range => ∃ g, Contents range n g ∧
    Sorting less splitters f (fun k => bucketFor less splitters (blockSorted sort f blockSize n k))
      numBuckets n done g)
    ⟨g, hrange, Sorting.start hperm' (fun _ _ => rfl) hg⟩ ?_).bind ?_
  · rintro done bucket range hbucket - ⟨g, hrange, hs⟩
    exact returns_sortBucket hless hsort hoffsets hbucket hrange hs
  · rintro range ⟨g, hrange, hs⟩
    exact Returns.pure ⟨⟨g, hrange, hs.perm, hs.all hless hkeys⟩, hwritten⟩

/-- Arrays of any size. -/
theorem returns_sampleSort_sorted (hless : StrictWeakOrder less) (hsort : Sorts less sort) (uninit f : ℕ → T)
    (schedules : ℕ → Schedule) {range : Array T} (hrange : Contents range n f) (hn : n < 2 ^ 63)
    (hworkers : 1 ≤ numWorkers) (hworkers' : numWorkers < 2 ^ 32) :
    Returns (fun r => ∃ g, Contents r.1 n g ∧ ((List.range n).map g).Perm ((List.range n).map f) ∧
      Sorted less ((List.range n).map g)) (sampleSort less sort sizeofT uninit numWorkers schedules range) := by
  rcases Nat.lt_or_ge n 8192 with hsmall | hlarge
  · obtain ⟨output, heq, houtput⟩ := hrange.sortRange hsort (Nat.zero_le _) le_rfl
    unfold sampleSort
    dsimp only
    rw [hrange.size, if_pos hsmall]
    refine Returns.bind_eq heq (Returns.pure ⟨_, houtput, sortedOn_perm hsort (Nat.zero_le _) le_rfl, ?_⟩)
    refine List.pairwise_map.mpr (List.pairwise_lt_range.imp_of_mem fun {p q} _ hq hpq => ?_)
    exact sortedOn_sorted hsort (Nat.zero_le p) hpq (List.mem_range.mp hq)
  · exact (returns_sampleSort hless hsort uninit f schedules hrange hlarge hn hworkers hworkers').mono
      fun r h => h.1

/-- `sampleSort` sorts: no access is out of bounds, the result is an ordered permutation of the input,
and the scatter phase writes every position at most once. -/
theorem sampleSort_sorts (hless : StrictWeakOrder less) (hsort : Sorts less sort) (hsizeof : 1 ≤ sizeofT)
    (hworkers : 1 ≤ numWorkers) (hworkers' : numWorkers < 2 ^ 16) (uninit : ℕ → T)
    (schedules : ℕ → Schedule) (input : Array T)
    (hn : input.size * sizeofT < 2 ^ 60) :
    ∃ output written, sampleSort less sort sizeofT uninit numWorkers schedules input = some (output, written) ∧
      output.toList.Perm input.toList ∧ Sorted less output.toList ∧ written.Nodup ∧
        ∀ p ∈ written, p < input.size := by
  have hinhabited : Inhabited T := ⟨uninit 0⟩
  have hinput := Contents.self input
  have hn' : input.size < 2 ^ 63 := (Nat.le_mul_of_pos_right _ hsizeof).trans_lt (hn.trans (by norm_num))
  rcases Nat.lt_or_ge input.size 8192 with hsmall | hlarge
  · obtain ⟨output, heq, houtput⟩ := hinput.sortRange hsort (Nat.zero_le _) le_rfl
    refine ⟨output, [], ?_, ?_, ?_, List.nodup_nil, fun p hp => (List.not_mem_nil hp).elim⟩
    · unfold sampleSort
      dsimp only
      rw [if_pos hsmall, heq]
      rfl
    · rw [houtput.toList, hinput.toList]
      exact sortedOn_perm hsort (Nat.zero_le _) le_rfl
    · rw [houtput.toList]
      refine List.pairwise_map.mpr (List.pairwise_lt_range.imp_of_mem fun {p q} _ hq hpq => ?_)
      exact sortedOn_sorted hsort (Nat.zero_le p) hpq (List.mem_range.mp hq)
  · obtain ⟨⟨output, written⟩, heq, ⟨g, houtput, hperm, hsorted⟩, hwritten⟩ :=
      returns_sampleSort hless hsort uninit _ schedules hinput hlarge hn' hworkers (hworkers'.trans (by norm_num))
    refine ⟨output, written, heq, ?_, ?_, hwritten.nodup_iff.mpr List.nodup_range, fun p hp => ?_⟩
    · rw [houtput.toList, hinput.toList]
      exact hperm
    · rw [houtput.toList]
      exact hsorted
    · exact List.mem_range.mp (hwritten.mem_iff.mp hp)

/-- Pairs ordered by their first component, so that different pairs are equivalent. -/
def pairLess (x y : ℕ × ℕ) : Bool := decide (x.1 < y.1)

/-- The order of the pairs is a strict weak one. -/
theorem pairLess_strict : StrictWeakOrder pairLess := by
  refine ⟨fun x => ?_, fun x y z => ?_, fun x y z => ?_⟩ <;> simp only [pairLess, decide_eq_true_eq,
    decide_eq_false_iff_not] <;>
    omega

/-- The sorting function of the standard library sorts pairs. -/
theorem sorts_pairs : Sorts pairLess fun l => l.mergeSort fun x y => decide (x.1 ≤ y.1) := by
  refine ⟨fun l => List.mergeSort_perm l _, fun l => ?_⟩
  have hpairwise : (l.mergeSort fun x y => decide (x.1 ≤ y.1)).Pairwise fun x y => decide (x.1 ≤ y.1) = true := by
    refine List.pairwise_mergeSort (fun x y z => ?_) (fun x y => ?_) l
    · simp only [decide_eq_true_eq]
      omega
    · simp only [Bool.or_eq_true, decide_eq_true_eq]
      omega
  exact hpairwise.imp fun {x y} h => by simpa [pairLess] using h

/-- Ten thousand pairs with seven different keys and five workers. -/
theorem sampleSort_sorts_pairs :
    ∃ output written, sampleSort pairLess (fun l => l.mergeSort fun x y => decide (x.1 ≤ y.1)) 16
      (fun _ => (0, 0)) 5
        (fun _ => Schedule.ascending) (Array.ofFn fun i : Fin 10000 => (i.val % 7, i.val)) =
          some (output, written) ∧
      output.toList.Perm (Array.ofFn fun i : Fin 10000 => (i.val % 7, i.val)).toList ∧
        Sorted pairLess output.toList ∧
      written.Nodup ∧ ∀ p ∈ written, p < (Array.ofFn fun i : Fin 10000 => (i.val % 7, i.val)).size :=
  sampleSort_sorts pairLess_strict sorts_pairs (by decide) (by decide) (by decide) _ _ _
    (by rw [Array.size_ofFn]; decide)

end SampleSort

end Primitives

end ToggleTree
