import ToggleTree.Checked.Loop
import Mathlib.Algebra.BigOperators.Intervals

/-!
# From a matrix of counts to destination ranges

Row `block` of the matrix `counts` holds how many elements of the block go to each bucket.
`histogram` adds up the columns in groups of eight buckets, turns the sums into the offsets of the
buckets, and replaces every count by the first destination of its elements: behind the earlier
buckets, and behind the earlier blocks of its own bucket.
-/

namespace ToggleTree

open Checked

namespace Primitives

/-- The first bucket of a group of eight. -/
def groupStart (g : ℕ) : ℕ := g * 8

/-- The end of a group of eight. -/
def groupEnd (numBuckets g : ℕ) : ℕ := min numBuckets (g * 8 + 8)

/-- The column sums of one group. -/
def sumGroup (numBuckets numBlocks : ℕ) (counts : Array ℕ) (g : ℕ) : Option (Array ℕ) :=
  loop 0 numBlocks (Array.replicate 8 0) fun block acc =>
    loop (groupStart g) (groupEnd numBuckets g) acc fun b acc => do
      let count ← counts[block * numBuckets + b]?
      let x ← acc[b - groupStart g]?
      write acc (b - groupStart g) (x + count)

/-- Exclusive prefix sums of the columns, in place. -/
def scanOffsets (numBuckets : ℕ) (bucketOffsets : Array ℕ) : Option (Array ℕ) := do
  let (total, bucketOffsets) ← loop 0 numBuckets (0, bucketOffsets) fun bucket (total, bucketOffsets) => do
    let x ← bucketOffsets[bucket]?
    let bucketOffsets ← write bucketOffsets bucket (total + x - x)
    some (total + x, bucketOffsets)
  write bucketOffsets numBuckets total

/-- Replace the counts of one group by destinations. -/
def placeGroup (numBuckets numBlocks : ℕ) (bucketOffsets : Array ℕ) (g : ℕ) (counts : Array ℕ) :
    Option (Array ℕ) := do
  let off ← loop (groupStart g) (groupEnd numBuckets g) (Array.replicate 8 0) fun b off => do
    let x ← bucketOffsets[b]?
    write off (b - groupStart g) x
  let (_, counts) ← loop 0 numBlocks (off, counts) fun block state =>
    loop (groupStart g) (groupEnd numBuckets g) state fun b (off, counts) => do
      let count ← counts[block * numBuckets + b]?
      let x ← off[b - groupStart g]?
      let off ← write off (b - groupStart g) (x + count)
      let counts ← write counts (block * numBuckets + b) (x + count - count)
      some (off, counts)
  some counts

/-- The offsets of the buckets, and the matrix of destinations. -/
def histogram (sums places : Schedule) (numBuckets numBlocks : ℕ) (counts : Array ℕ) :
    Option (Array ℕ × Array ℕ) := do
  let numGroups := (numBuckets + 8 - 1) / 8
  let bucketOffsets ← parallelLoop sums numGroups (Array.replicate (numBuckets + 1) 0) fun g bucketOffsets => do
    let acc ← sumGroup numBuckets numBlocks counts g
    loop (groupStart g) (groupEnd numBuckets g) bucketOffsets fun b bucketOffsets => do
      let x ← acc[b - groupStart g]?
      write bucketOffsets b x
  let bucketOffsets ← scanOffsets numBuckets bucketOffsets
  let counts ← parallelLoop places numGroups counts (placeGroup numBuckets numBlocks bucketOffsets)
  some (bucketOffsets, counts)

variable {numBuckets numBlocks : ℕ} {f : ℕ → ℕ} {counts : Array ℕ}

/-- The elements of a bucket in the blocks before `block`. -/
def columnSum (numBuckets : ℕ) (f : ℕ → ℕ) (block b : ℕ) : ℕ :=
  ∑ j ∈ Finset.range block, f (j * numBuckets + b)

/-- The first destination of a bucket. -/
def bucketOffset (numBuckets numBlocks : ℕ) (f : ℕ → ℕ) (b : ℕ) : ℕ :=
  ∑ c ∈ Finset.range b, columnSum numBuckets f numBlocks c

/-- The entries of the matrix of destinations. -/
def destinationOf (numBuckets numBlocks : ℕ) (f : ℕ → ℕ) (x : ℕ) : ℕ :=
  bucketOffset numBuckets numBlocks f (x % numBuckets) + columnSum numBuckets f (x / numBuckets) (x % numBuckets)

/-- An entry is inside the matrix. -/
theorem entry_lt {block b : ℕ} (hblock : block < numBlocks) (hb : b < numBuckets) :
    block * numBuckets + b < numBlocks * numBuckets := by
  calc block * numBuckets + b < block * numBuckets + numBuckets := by omega
    _ = (block + 1) * numBuckets := by ring
    _ ≤ numBlocks * numBuckets := Nat.mul_le_mul_right _ hblock

/-- The row of an entry. -/
theorem entry_div {block b : ℕ} (hb : b < numBuckets) : (block * numBuckets + b) / numBuckets = block := by
  rw [Nat.mul_comm, Nat.mul_add_div (by omega), Nat.div_eq_of_lt hb, Nat.add_zero]

/-- The column of an entry. -/
theorem entry_mod {block b : ℕ} (hb : b < numBuckets) : (block * numBuckets + b) % numBuckets = b := by
  rw [Nat.mul_comm, Nat.mul_add_mod, Nat.mod_eq_of_lt hb]

/-- Different entries of the matrix have different indices. -/
theorem entry_inj {j k b c : ℕ} (hb : b < numBuckets) (hc : c < numBuckets)
    (h : j * numBuckets + b = k * numBuckets + c) : j = k ∧ b = c := by
  have h₁ := congrArg (· / numBuckets) h
  have h₂ := congrArg (· % numBuckets) h
  simp only [entry_div hb, entry_div hc] at h₁
  simp only [entry_mod hb, entry_mod hc] at h₂
  exact ⟨h₁, h₂⟩

/-- One more row is added. -/
theorem columnSum_succ (block b : ℕ) :
    columnSum numBuckets f (block + 1) b = columnSum numBuckets f block b + f (block * numBuckets + b) :=
  Finset.sum_range_succ _ _

/-- The buckets of a group. -/
theorem mem_group {g b : ℕ} : (groupStart g ≤ b ∧ b < groupEnd numBuckets g) ↔ b < numBuckets ∧ b / 8 = g := by
  unfold groupStart groupEnd
  omega

/-- The sums of one group. -/
theorem returns_sumGroup (hcounts : Contents counts (numBlocks * numBuckets) f) {g : ℕ}
    (hg : groupStart g ≤ groupEnd numBuckets g) :
    Returns (fun acc => ∃ h, Contents acc 8 h ∧ ∀ b, groupStart g ≤ b → b < groupEnd numBuckets g →
      h (b - groupStart g) = columnSum numBuckets f numBlocks b) (sumGroup numBuckets numBlocks counts g) := by
  refine Returns.loop (I := fun block acc => ∃ h, Contents acc 8 h ∧ ∀ b, groupStart g ≤ b →
    b < groupEnd numBuckets g → h (b - groupStart g) = columnSum numBuckets f block b) (Nat.zero_le _)
    ⟨_, Contents.replicate 8 0, fun b _ _ => rfl⟩ ?_
  rintro block acc - hblock ⟨h, hacc, hh⟩
  refine (Returns.loop (I := fun b acc => ∃ h, Contents acc 8 h ∧ ∀ c, groupStart g ≤ c →
    c < groupEnd numBuckets g → h (c - groupStart g) = columnSum numBuckets f (if c < b then block + 1
      else block) c) hg
    ⟨h, hacc, fun c hc hc' => by rw [if_neg (by omega), hh c hc hc']⟩ ?_).mono ?_
  · rintro b acc hb hb' ⟨h, hacc, hh⟩
    obtain ⟨hlt, rfl⟩ := mem_group.mp ⟨hb, hb'⟩
    have hoff : b - groupStart (b / 8) < 8 := by
      unfold groupStart
      omega
    refine Returns.bind_eq (hcounts.get _ (entry_lt hblock hlt)) (Returns.bind_eq (hacc.get _ hoff) ?_)
    obtain ⟨acc', hwrite, hacc'⟩ := hacc.write hoff (h (b - groupStart (b / 8)) + f (block * numBuckets + b))
    refine Returns.of_eq hwrite ⟨_, hacc', fun c hc hc' => ?_⟩
    by_cases hcb : c = b
    · subst hcb
      rw [Function.update_self, if_pos (by omega), hh c hc hc', if_neg (lt_irrefl c), columnSum_succ]
    · rw [Function.update_of_ne (by omega), hh c hc hc']
      congr 1
      exact if_congr (by omega) rfl rfl
  · rintro acc ⟨h, hacc, hh⟩
    exact ⟨h, hacc, fun b hb hb' => by rw [hh b hb hb', if_pos hb']⟩

/-- The prefix sums. -/
theorem returns_scanOffsets {bucketOffsets : Array ℕ} {h : ℕ → ℕ}
    (hoffsets : Contents bucketOffsets (numBuckets + 1) h)
    (hh : ∀ b < numBuckets, h b = columnSum numBuckets f numBlocks b) :
    Returns (fun offsets => Contents offsets (numBuckets + 1) (bucketOffset numBuckets numBlocks f))
      (scanOffsets numBuckets bucketOffsets) := by
  refine (Returns.loop (I := fun bucket (state : ℕ × Array ℕ) =>
    state.1 = bucketOffset numBuckets numBlocks f bucket ∧
    ∃ h, Contents state.2 (numBuckets + 1) h ∧ ∀ b < numBuckets,
      h b = if b < bucket then bucketOffset numBuckets numBlocks f b else columnSum numBuckets f numBlocks b)
    (Nat.zero_le _) ⟨rfl, h, hoffsets, fun b hb => by rw [if_neg (Nat.not_lt_zero b), hh b hb]⟩ ?_).bind ?_
  · rintro bucket ⟨total, offsets⟩ - hbucket ⟨htotal, h, hoffsets, hh⟩
    have hin : bucket < numBuckets + 1 := by omega
    refine Returns.bind_eq (hoffsets.get bucket hin) ?_
    obtain ⟨offsets', hwrite, hoffsets'⟩ := hoffsets.write hin (total + h bucket - h bucket)
    refine Returns.bind_eq hwrite (Returns.pure ⟨?_, _, hoffsets', fun b hb => ?_⟩)
    · rw [hh bucket hbucket, if_neg (lt_irrefl bucket)]
      change total + _ = _
      rw [show total = _ from htotal, bucketOffset, bucketOffset, Finset.sum_range_succ]
    · rcases eq_or_ne b bucket with rfl | hne
      · rw [Function.update_self, if_pos (Nat.lt_succ_self b), Nat.add_sub_cancel]
        exact htotal
      · rw [Function.update_of_ne hne, hh b hb]
        exact if_congr (by omega) rfl rfl
  · rintro ⟨total, offsets⟩ ⟨htotal, h, hoffsets, hh⟩
    obtain ⟨offsets', hwrite, hoffsets'⟩ := hoffsets.write (Nat.lt_succ_self numBuckets) total
    refine Returns.of_eq hwrite (hoffsets'.congr fun b hb => ?_)
    rcases eq_or_ne b numBuckets with rfl | hne
    · rw [Function.update_self]
      exact htotal
    · rw [Function.update_of_ne hne, hh b (by omega), if_pos (by omega)]

/-- In group `g`, the rows before `block` and in row `block` the columns before `b` are destinations. -/
structure Placing (numBuckets numBlocks : ℕ) (f h : ℕ → ℕ) (g block b : ℕ)
    (state : Array ℕ × Array ℕ) : Prop where
  off : ∃ k, Contents state.1 8 k ∧ ∀ c, groupStart g ≤ c → c < groupEnd numBuckets g → k (c - groupStart g) =
    bucketOffset numBuckets numBlocks f c + columnSum numBuckets f (if c < b then block + 1 else block) c
  counts : ∃ h', Contents state.2 (numBlocks * numBuckets) h' ∧ ∀ j < numBlocks, ∀ c < numBuckets,
    h' (j * numBuckets + c) = if c / 8 = g ∧ (j < block ∨ j = block ∧ c < b) then
      destinationOf numBuckets numBlocks f (j * numBuckets + c) else h (j * numBuckets + c)

/-- The end of one row is the start of the next one. -/
theorem Placing.next {h : ℕ → ℕ} {g block : ℕ} {state : Array ℕ × Array ℕ}
    (hs : Placing numBuckets numBlocks f h g block (groupEnd numBuckets g) state) :
    Placing numBuckets numBlocks f h g (block + 1) (groupStart g) state := by
  obtain ⟨⟨k, hoff, hk⟩, h', hcounts, hh'⟩ := hs
  refine ⟨⟨k, hoff, fun c hc hc' => ?_⟩, h', hcounts, fun j hj c hc => ?_⟩
  · rw [hk c hc hc', if_pos hc', if_neg (not_lt.mpr hc)]
  · rw [hh' j hj c hc]
    refine if_congr (and_congr_right fun hcg => ?_) rfl rfl
    have := mem_group.mpr ⟨hc, hcg⟩
    omega

/-- One entry of a row. -/
theorem Placing.entry {h : ℕ → ℕ} {g block b : ℕ} {off counts : Array ℕ}
    (hs : Placing numBuckets numBlocks f h g block b (off, counts)) (hblock : block < numBlocks)
    (hb : groupStart g ≤ b) (hb' : b < groupEnd numBuckets g)
    (hh : h (block * numBuckets + b) = f (block * numBuckets + b)) :
    Returns (Placing numBuckets numBlocks f h g block (b + 1)) (do
      let count ← counts[block * numBuckets + b]?
      let x ← off[b - groupStart g]?
      let off ← write off (b - groupStart g) (x + count)
      let counts ← write counts (block * numBuckets + b) (x + count - count)
      some (off, counts)) := by
  obtain ⟨⟨k, hoff, hk⟩, h', hcounts, hh'⟩ := hs
  obtain ⟨hlt, rfl⟩ := mem_group.mp ⟨hb, hb'⟩
  have hin : b - groupStart (b / 8) < 8 := by
    unfold groupStart
    omega
  have hentry := entry_lt hblock hlt
  have hold : h' (block * numBuckets + b) = f (block * numBuckets + b) := by
    rw [hh' block hblock b hlt, if_neg (by omega), hh]
  have hkb := hk b hb hb'
  rw [if_neg (lt_irrefl b)] at hkb
  refine Returns.bind_eq (hcounts.get _ hentry) (Returns.bind_eq (hoff.get _ hin) ?_)
  obtain ⟨off', hwrite, hoff'⟩ := hoff.write hin (k (b - groupStart (b / 8)) + h' (block * numBuckets + b))
  obtain ⟨counts', hwrite', hcounts'⟩ := hcounts.write hentry
    (k (b - groupStart (b / 8)) + h' (block * numBuckets + b) - h' (block * numBuckets + b))
  refine Returns.bind_eq hwrite (Returns.bind_eq hwrite'
    (Returns.pure ⟨⟨_, hoff', fun c hc hc' => ?_⟩, _, hcounts',
    fun j hj c hc => ?_⟩))
  · by_cases hcb : c = b
    · subst hcb
      rw [Function.update_self, hkb, hold, if_pos (Nat.lt_succ_self c), columnSum_succ, Nat.add_assoc]
    · rw [Function.update_of_ne (by omega), hk c hc hc']
      congr 2
      exact if_congr (by omega) rfl rfl
  · by_cases hjc : j = block ∧ c = b
    · obtain ⟨rfl, rfl⟩ := hjc
      rw [Function.update_self, Nat.add_sub_cancel, hkb, if_pos ⟨rfl, Or.inr ⟨rfl, Nat.lt_succ_self c⟩⟩,
        destinationOf, entry_div hc, entry_mod hc]
    · rw [Function.update_of_ne fun heq => hjc (entry_inj hc hlt heq), hh' j hj c hc]
      exact if_congr (by omega) rfl rfl

/-- The destinations of one group. -/
theorem returns_placeGroup {bucketOffsets : Array ℕ} {h : ℕ → ℕ} {g : ℕ}
    (hoffsets : Contents bucketOffsets (numBuckets + 1) (bucketOffset numBuckets numBlocks f))
    (hcounts : Contents counts (numBlocks * numBuckets) h) (hg : groupStart g ≤ groupEnd numBuckets g)
    (hh : ∀ block < numBlocks, ∀ b < numBuckets, b / 8 = g →
      h (block * numBuckets + b) = f (block * numBuckets + b)) :
    Returns (fun counts => ∃ h', Contents counts (numBlocks * numBuckets) h' ∧
      ∀ block < numBlocks, ∀ b < numBuckets,
      h' (block * numBuckets + b) =
        if b / 8 = g then destinationOf numBuckets numBlocks f (block * numBuckets + b)
        else h (block * numBuckets + b)) (placeGroup numBuckets numBlocks bucketOffsets g counts) := by
  refine (Returns.loop (I := fun b off => ∃ k, Contents off 8 k ∧ ∀ c, groupStart g ≤ c → c < b →
    k (c - groupStart g) = bucketOffset numBuckets numBlocks f c) hg
    ⟨_, Contents.replicate 8 0, fun c hc hc' => by omega⟩ ?_).bind ?_
  · rintro b off hb hb' ⟨k, hoff, hk⟩
    obtain ⟨hlt, rfl⟩ := mem_group.mp ⟨hb, hb'⟩
    have hin : b - groupStart (b / 8) < 8 := by
      unfold groupStart
      omega
    refine Returns.bind_eq (hoffsets.get b (by omega)) ?_
    obtain ⟨off', hwrite, hoff'⟩ := hoff.write hin (bucketOffset numBuckets numBlocks f b)
    refine Returns.of_eq hwrite ⟨_, hoff', fun c hc hc' => ?_⟩
    by_cases hcb : c = b
    · subst hcb
      rw [Function.update_self]
    · rw [Function.update_of_ne (by omega), hk c hc (by omega)]
  · rintro off ⟨k, hoff, hk⟩
    refine (Returns.loop (I := fun block => Placing numBuckets numBlocks f h g block (groupStart g))
      (Nat.zero_le _) ⟨⟨k, hoff, fun c hc hc' => ?_⟩, h, hcounts, fun j _ c _ => ?_⟩ ?_).bind ?_
    · rw [hk c hc hc', if_neg (not_lt.mpr hc), columnSum, Finset.sum_range_zero, Nat.add_zero]
    · refine (if_neg fun hd => ?_).symm
      unfold groupStart at hd
      omega
    · rintro block state - hblock hstate
      refine (Returns.loop (I := Placing numBuckets numBlocks f h g block) hg hstate ?_).mono fun _ hs => hs.next
      rintro b ⟨off, counts⟩ hb hb' hs
      obtain ⟨hlt, hbg⟩ := mem_group.mp ⟨hb, hb'⟩
      exact hs.entry hblock hb hb' (hh block hblock b hlt hbg)
    · rintro ⟨off, counts⟩ ⟨_, h', hcounts, hh'⟩
      refine Returns.pure ⟨h', hcounts, fun j hj c hc => ?_⟩
      rw [hh' j hj c hc]
      exact if_congr (and_iff_left (Or.inl hj)) rfl rfl

/-- The offsets and destinations, whatever the order of the groups. -/
theorem returns_histogram (sums places : Schedule) (hcounts : Contents counts (numBlocks * numBuckets) f) :
    Returns (fun r => Contents r.1 (numBuckets + 1) (bucketOffset numBuckets numBlocks f) ∧
      Contents r.2 (numBlocks * numBuckets) (destinationOf numBuckets numBlocks f))
      (histogram sums places numBuckets numBlocks counts) := by
  have hgroup : ∀ g < (numBuckets + 8 - 1) / 8, groupStart g ≤ groupEnd numBuckets g := by
    intro g hg
    unfold groupStart groupEnd
    omega
  have hmem : ∀ b < numBuckets, b / 8 ∈ Finset.range ((numBuckets + 8 - 1) / 8) := by
    intro b hb
    rw [Finset.mem_range]
    omega
  refine (Returns.parallelLoop (I := fun done offsets => ∃ h, Contents offsets (numBuckets + 1) h ∧
    ∀ b < numBuckets, b / 8 ∈ done → h b = columnSum numBuckets f numBlocks b)
    ⟨_, Contents.replicate _ 0, fun b _ hb => (Finset.notMem_empty _ hb).elim⟩ ?_).bind ?_
  · rintro done g offsets hg - ⟨h, hoffsets, hh⟩
    refine (returns_sumGroup hcounts (hgroup g hg)).bind ?_
    rintro acc ⟨k, hacc, hk⟩
    refine (Returns.loop (I := fun b offsets => ∃ h, Contents offsets (numBuckets + 1) h ∧ ∀ c < numBuckets,
      (c / 8 ∈ done ∨ groupStart g ≤ c ∧ c < b) → h c = columnSum numBuckets f numBlocks c) (hgroup g hg)
      ⟨h, hoffsets, fun c hc hd => hh c hc (hd.resolve_right (by omega))⟩ ?_).mono ?_
    · rintro b offsets hb hb' ⟨h, hoffsets, hh⟩
      obtain ⟨hlt, rfl⟩ := mem_group.mp ⟨hb, hb'⟩
      have hin : b - groupStart (b / 8) < 8 := by
        unfold groupStart
        omega
      refine Returns.bind_eq (hacc.get _ hin) ?_
      obtain ⟨offsets', hwrite, hoffsets'⟩ :=
        hoffsets.write (show b < numBuckets + 1 by omega) (k (b - groupStart (b / 8)))
      refine Returns.of_eq hwrite ⟨_, hoffsets', fun c hc hd => ?_⟩
      rcases eq_or_ne c b with rfl | hne
      · rw [Function.update_self, hk c hb hb']
      · rw [Function.update_of_ne hne]
        exact hh c hc (hd.imp id fun h => ⟨h.1, by omega⟩)
    · rintro offsets ⟨h, hoffsets, hh⟩
      refine ⟨h, hoffsets, fun b hb hd => hh b hb ?_⟩
      rcases Finset.mem_insert.mp hd with heq | hd
      · exact Or.inr (mem_group.mpr ⟨hb, heq⟩)
      · exact Or.inl hd
  · rintro offsets ⟨h, hoffsets, hh⟩
    refine (returns_scanOffsets hoffsets fun b hb => hh b hb (hmem b hb)).bind fun offsets hoffsets => ?_
    refine (Returns.parallelLoop (I := fun done counts => ∃ h, Contents counts (numBlocks * numBuckets) h ∧
      ∀ block < numBlocks, ∀ b < numBuckets, h (block * numBuckets + b) =
        if b / 8 ∈ done then destinationOf numBuckets numBlocks f (block * numBuckets + b)
        else f (block * numBuckets + b))
      ⟨f, hcounts, fun _ _ _ _ => (if_neg (Finset.notMem_empty _)).symm⟩ ?_).bind ?_
    · rintro done g counts hg hnot ⟨h, hcounts, hh⟩
      refine (returns_placeGroup hoffsets hcounts (hgroup g hg) fun block hblock b hb hbg => ?_).mono ?_
      · rw [hh block hblock b hb, if_neg (hbg ▸ hnot)]
      · rintro counts ⟨h', hcounts', hh'⟩
        refine ⟨h', hcounts', fun block hblock b hb => ?_⟩
        rw [hh' block hblock b hb, hh block hblock b hb]
        by_cases hbg : b / 8 = g
        · rw [if_pos hbg, if_pos (Finset.mem_insert.mpr (Or.inl hbg))]
        · rw [if_neg hbg]
          exact if_congr (by rw [Finset.mem_insert, or_iff_right hbg]) rfl rfl
    · rintro counts ⟨h, hcounts, hh⟩
      refine Returns.pure ⟨hoffsets, hcounts.congr fun x hx => ?_⟩
      have hpos : 0 < numBuckets := Nat.pos_of_ne_zero fun hz => by
        rw [hz, Nat.mul_zero] at hx
        exact Nat.not_lt_zero x hx
      have hmod := Nat.mod_lt x hpos
      have hdiv : x / numBuckets < numBlocks := Nat.div_lt_of_lt_mul (by rwa [Nat.mul_comm])
      have hsplit : x / numBuckets * numBuckets + x % numBuckets = x := by
        rw [Nat.mul_comm]
        exact Nat.div_add_mod x numBuckets
      have := hh (x / numBuckets) hdiv (x % numBuckets) hmod
      rw [hsplit, if_pos (hmem _ hmod)] at this
      exact this

section Partition

/-- An entry of a matrix stored row by row. -/
def entryAt (numBuckets : ℕ) (counts : Array ℕ) (block b : ℕ) : ℕ := counts.getD (block * numBuckets + b) 0

/-- A position below a total lies between two neighbouring prefix sums. -/
theorem exists_prefixSum {g : ℕ → ℕ} {n x : ℕ} (h : x < ∑ i ∈ Finset.range n, g i) :
    ∃ i < n, ∑ j ∈ Finset.range i, g j ≤ x ∧ x < ∑ j ∈ Finset.range (i + 1), g j := by
  induction n with
  | zero => simp at h
  | succ n ih =>
    by_cases hx : x < ∑ i ∈ Finset.range n, g i
    · obtain ⟨i, hi, hbetween⟩ := ih hx
      exact ⟨i, by omega, hbetween⟩
    · exact ⟨n, Nat.lt_succ_self n, not_lt.mp hx, h⟩

/-- Longer prefixes have greater sums. -/
theorem prefixSum_mono (g : ℕ → ℕ) {i j : ℕ} (h : i ≤ j) :
    ∑ k ∈ Finset.range i, g k ≤ ∑ k ∈ Finset.range j, g k :=
  Finset.sum_le_sum_of_subset (Finset.range_mono h)

/-- Where the range of one entry ends, a later one in the order of the buckets and then of the
blocks has not started yet. -/
theorem rangeEnd_le {j k b c : ℕ} (hj : j < numBlocks) (horder : b < c ∨ b = c ∧ j < k) :
    bucketOffset numBuckets numBlocks f b + columnSum numBuckets f (j + 1) b ≤
      bucketOffset numBuckets numBlocks f c + columnSum numBuckets f k c := by
  rcases horder with hbc | ⟨rfl, hjk⟩
  · calc bucketOffset numBuckets numBlocks f b + columnSum numBuckets f (j + 1) b
        ≤ bucketOffset numBuckets numBlocks f b + columnSum numBuckets f numBlocks b :=
          Nat.add_le_add_left (prefixSum_mono _ hj) _
      _ = bucketOffset numBuckets numBlocks f (b + 1) := (Finset.sum_range_succ _ b).symm
      _ ≤ bucketOffset numBuckets numBlocks f c := prefixSum_mono _ hbc
      _ ≤ bucketOffset numBuckets numBlocks f c + columnSum numBuckets f k c := Nat.le_add_right _ _
  · exact Nat.add_le_add_left (prefixSum_mono _ hjk) _

/-- Every position below the total lies in the range of some entry. -/
theorem exists_range {x : ℕ} (hx : x < bucketOffset numBuckets numBlocks f numBuckets) :
    ∃ block < numBlocks, ∃ b < numBuckets, bucketOffset numBuckets numBlocks f b + columnSum numBuckets
      f block b ≤ x ∧
      x < bucketOffset numBuckets numBlocks f b + columnSum numBuckets f (block + 1) b := by
  obtain ⟨b, hb, hle, hlt⟩ := exists_prefixSum hx
  change bucketOffset numBuckets numBlocks f b ≤ x at hle
  change x < bucketOffset numBuckets numBlocks f (b + 1) at hlt
  have hsucc : bucketOffset numBuckets numBlocks f (b + 1) =
      bucketOffset numBuckets numBlocks f b + columnSum numBuckets f numBlocks b := Finset.sum_range_succ _ b
  have hin : x - bucketOffset numBuckets numBlocks f b < columnSum numBuckets f numBlocks b := by omega
  obtain ⟨block, hblock, hle', hlt'⟩ := exists_prefixSum hin
  change columnSum numBuckets f block b ≤ _ at hle'
  change _ < columnSum numBuckets f (block + 1) b at hlt'
  exact ⟨block, hblock, b, hb, by omega, by omega⟩

/-- The first entries of the buckets and the destinations, which split the positions below the
total among the entries. All sums are at most the total, so they do not wrap while it is below 2^64. -/
theorem histogram_partitions (sums places : Schedule) (numBuckets numBlocks : ℕ) (counts : Array ℕ)
    (hsize : counts.size = numBlocks * numBuckets) :
    ∃ offsets destinations, histogram sums places numBuckets numBlocks counts = some (offsets, destinations) ∧
      offsets.size = numBuckets + 1 ∧ destinations.size = counts.size ∧
      (∀ b ≤ numBuckets, offsets[b]? = some
        (∑ c ∈ Finset.range b, ∑ block ∈ Finset.range numBlocks, entryAt numBuckets counts block c)) ∧
      (∀ block < numBlocks, ∀ b < numBuckets, entryAt numBuckets destinations block b =
        offsets.getD b 0 + ∑ j ∈ Finset.range block, entryAt numBuckets counts j b) ∧
      (∀ x < offsets.getD numBuckets 0, ∃! e : ℕ × ℕ, e.1 < numBlocks ∧ e.2 < numBuckets ∧
        entryAt numBuckets destinations e.1 e.2 ≤ x ∧
        x < entryAt numBuckets destinations e.1 e.2 + entryAt numBuckets counts e.1 e.2) ∧
      (∀ block < numBlocks, ∀ b < numBuckets, entryAt numBuckets destinations block b +
        entryAt numBuckets counts block b ≤ offsets.getD numBuckets 0) ∧
      ∀ j < numBlocks, ∀ k < numBlocks, ∀ b < numBuckets, ∀ c < numBuckets, (b < c ∨ b = c ∧ j < k) →
        entryAt numBuckets destinations j b + entryAt numBuckets counts j b ≤
          entryAt numBuckets destinations k c := by
  have hcounts : Contents counts (numBlocks * numBuckets) (fun i => counts.getD i 0) := by
    rw [← hsize]
    exact Contents.self counts
  obtain ⟨⟨offsets, destinations⟩, heq, hoffsets, hplaces⟩ := returns_histogram sums places hcounts
  dsimp only at hoffsets hplaces
  set f : ℕ → ℕ := fun i => counts.getD i 0 with hf
  have hoffset : ∀ b ≤ numBuckets, offsets.getD b 0 = bucketOffset numBuckets numBlocks f b := by
    intro b hb
    rw [Array.getD_eq_getD_getElem?, hoffsets.get b (by omega), Option.getD_some]
  have hentry : ∀ block < numBlocks, ∀ b < numBuckets, entryAt numBuckets destinations block b =
      bucketOffset numBuckets numBlocks f b + columnSum numBuckets f block b := by
    intro block hblock b hb
    rw [entryAt, Array.getD_eq_getD_getElem?, hplaces.get _ (entry_lt hblock hb), Option.getD_some, destinationOf,
      entry_div hb, entry_mod hb]
  have hend : ∀ block < numBlocks, ∀ b < numBuckets,
      entryAt numBuckets destinations block b + entryAt numBuckets counts block b =
        bucketOffset numBuckets numBlocks f b + columnSum numBuckets f (block + 1) b := by
    intro block hblock b hb
    rw [hentry block hblock b hb, columnSum_succ, Nat.add_assoc]
    rfl
  have hordered : ∀ j < numBlocks, ∀ k < numBlocks, ∀ b < numBuckets, ∀ c < numBuckets, (b < c ∨ b = c ∧ j < k) →
      entryAt numBuckets destinations j b + entryAt numBuckets counts j b ≤ entryAt numBuckets
        destinations k c := by
    intro j hj k hk b hb c hc horder
    rw [hend j hj b hb, hentry k hk c hc]
    exact rangeEnd_le hj horder
  refine ⟨offsets, destinations, heq, hoffsets.size, hplaces.size.trans hsize.symm,
    fun b hb => hoffsets.get b (by omega),
    fun block hblock b hb => ?_, fun x hx => ?_, fun block hblock b hb => ?_, hordered⟩
  · rw [hentry block hblock b hb, hoffset b hb.le]
    rfl
  · rw [hoffset numBuckets le_rfl] at hx
    obtain ⟨block, hblock, b, hb, hle, hlt⟩ := exists_range hx
    refine ⟨(block, b), ⟨hblock, hb, ?_, ?_⟩, ?_⟩
    · rw [hentry block hblock b hb]
      exact hle
    · rw [hend block hblock b hb]
      exact hlt
    · rintro ⟨j, c⟩ ⟨hj, hc, hle', hlt'⟩
      dsimp only at hj hc hle' hlt'
      rw [← hentry block hblock b hb] at hle
      rw [← hend block hblock b hb] at hlt
      have hnot : ¬(b < c ∨ b = c ∧ block < j) := fun h => by
        have := hordered block hblock j hj b hb c hc h
        omega
      have hnot' : ¬(c < b ∨ c = b ∧ j < block) := fun h => by
        have := hordered j hj block hblock c hc b hb h
        omega
      exact Prod.ext (by dsimp only; omega) (by dsimp only; omega)
  · rw [hend block hblock b hb, hoffset numBuckets le_rfl]
    calc bucketOffset numBuckets numBlocks f b + columnSum numBuckets f (block + 1) b
        ≤ bucketOffset numBuckets numBlocks f b + columnSum numBuckets f numBlocks b :=
          Nat.add_le_add_left (prefixSum_mono _ hblock) _
      _ = bucketOffset numBuckets numBlocks f (b + 1) := (Finset.sum_range_succ _ b).symm
      _ ≤ bucketOffset numBuckets numBlocks f numBuckets := prefixSum_mono _ hb

/-- One block whose elements go to the second of two buckets. -/
theorem histogram_partitions_twoBuckets :
    ∃ offsets destinations, histogram Schedule.ascending Schedule.ascending 2 1 #[0, 3] =
      some (offsets, destinations) ∧
      offsets[1]? = some 0 ∧ offsets[2]? = some 3 := by
  obtain ⟨offsets, destinations, heq, _, _, hoffsets, _⟩ :=
    histogram_partitions Schedule.ascending Schedule.ascending 2 1 #[0, 3] rfl
  exact ⟨offsets, destinations, heq, hoffsets 1 (by decide), hoffsets 2 le_rfl⟩

end Partition

end Primitives

end ToggleTree
