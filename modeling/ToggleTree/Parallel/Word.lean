import Mathlib.Data.List.GetD
import Mathlib.Data.List.Sort
import Mathlib.Data.Nat.Factorization.Basic
import Mathlib.Data.Nat.Size
import Mathlib.Tactic

/-!
# Words of 64 flags

`popCount` and `popOffset` enumerate the set bits of a word in ascending order: the
traversals of both trees visit the children of a node by running `i` from `0` to
`popCount word` and looking at bit `popOffset i word`.
-/

namespace ToggleTree

/-- A 64-bit unsigned machine word. -/
abbrev Word := BitVec 64

/-- The number of set bits. -/
def popCount (word : Word) : ℕ := (List.range 64).countP fun i => word.getLsbD i

/-- The number of trailing zero bits, 64 for the zero word. -/
def countrZero (word : Word) : ℕ := ((List.range 64).find? fun i => word.getLsbD i).getD 64

/-- The position of the set bit number `i`: clear the lowest set bit `i` times, then look. -/
def popOffset : ℕ → Word → ℕ
  | 0, word => countrZero word
  | i + 1, word => popOffset i (word &&& (word - 1))

/-- Two 32-bit halves in one word. -/
def glue32 (hi lo : ℕ) : ℕ := (hi <<< 32 ||| lo) % 2 ^ 64

/-- The upper half of a 64-bit value. -/
def hi32 (word : ℕ) : ℕ := word >>> 32

/-- The lower half of a 64-bit value. -/
def lo32 (word : ℕ) : ℕ := word % 2 ^ 32

/-- The bit width of a number; this is what the code calls `log2`. -/
def log2 (x : ℕ) : ℕ := x.size

/-- The positions of the set bits, ascending. -/
def bits (word : Word) : List ℕ := (List.range 64).filter fun i => word.getLsbD i

/-- The bits of a word. -/
@[simp] theorem mem_bits {word : Word} {i : ℕ} : i ∈ bits word ↔ word.getLsbD i = true := by
  simp only [bits, List.mem_filter, List.mem_range, and_iff_right_iff_imp]
  intro h
  by_contra hi
  rw [BitVec.getLsbD_of_ge word i (by omega)] at h
  exact Bool.false_ne_true h

/-- A bit is one of 64. -/
theorem bits_lt {word : Word} {i : ℕ} (h : i ∈ bits word) : i < 64 := by
  simp only [bits, List.mem_filter, List.mem_range] at h
  exact h.1

/-- The number of bits. -/
theorem popCount_eq_length (word : Word) : popCount word = (bits word).length :=
  List.countP_eq_length_filter

/-- A word is zero exactly when it has no set bit. -/
theorem word_eq_zero_iff {word : Word} : word = 0 ↔ ∀ i, word.getLsbD i = false := by
  constructor
  · rintro rfl i
    simp
  · intro h
    exact BitVec.eq_of_getLsbD_eq fun i _ => by simp [h i]

/-- A word without bits is 0. -/
theorem bits_eq_nil_iff {word : Word} : bits word = [] ↔ word = 0 := by
  rw [word_eq_zero_iff, List.eq_nil_iff_forall_not_mem]
  simp

/-- Every nonzero word splits at its lowest set bit. -/
theorem toNat_eq_lowest {word : Word} (h : word ≠ 0) :
    ∃ k m, word.toNat = 2 ^ k * (2 * m + 1) := by
  have hne : word.toNat ≠ 0 := fun h0 => h (BitVec.eq_of_toNat_eq (by simpa using h0))
  obtain ⟨k, m, hm, hk⟩ := Nat.exists_eq_two_pow_mul_odd hne
  obtain ⟨r, rfl⟩ := hm
  exact ⟨k, r, hk⟩

/-- Subtracting one flips the lowest set bit and the zeros below it. -/
theorem getLsbD_and_sub_one {word : Word} {k m : ℕ} (h : word.toNat = 2 ^ k * (2 * m + 1)) (i : ℕ) :
    (word &&& (word - 1)).getLsbD i = (word.getLsbD i && decide (i ≠ k)) := by
  have hpos : 0 < 2 ^ k := Nat.two_pow_pos k
  have hle : 1 ≤ word.toNat := by rw [h]; exact Nat.one_le_iff_ne_zero.mpr (by positivity)
  have hsub : (word - 1).toNat = 2 ^ k * (2 * m) + (2 ^ k - 1) := by
    have h1 : (1 : Word).toNat = 1 := rfl
    rw [BitVec.toNat_sub_of_le (by rw [BitVec.le_def, h1]; exact hle), h1, h, Nat.mul_add, Nat.mul_one]
    omega
  have hword : word.toNat = 2 ^ k * (2 * m + 1) + 0 := h
  rw [BitVec.getLsbD_and]
  simp only [← BitVec.testBit_toNat, hsub]
  rw [hword, Nat.testBit_two_pow_mul_add _ (by omega), Nat.testBit_two_pow_mul_add _ (by omega)]
  rcases lt_trichotomy i k with hik | rfl | hik
  · simp [hik]
  · simp
  · obtain ⟨d, rfl⟩ := Nat.exists_eq_add_of_lt hik
    have hd : k + d + 1 - k = d + 1 := by omega
    rw [if_neg (by omega), if_neg (by omega), hd, Nat.testBit_succ, Nat.testBit_succ]
    simp only [ne_eq, show (2 * m + 1) / 2 = m by omega, show 2 * m / 2 = m by omega, Bool.and_self]
    simp only [show k + d + 1 ≠ k by omega, not_false_eq_true, decide_true, Bool.and_true]

/-- The bits increase. -/
theorem bits_pairwise (word : Word) : (bits word).Pairwise (· < ·) :=
  List.pairwise_lt_range.filter _

/-- The bits are different. -/
theorem bits_nodup (word : Word) : (bits word).Nodup := List.nodup_range.filter _

/-- No bit below the lowest one is set, and the lowest one is. -/
theorem getLsbD_lowest {word : Word} {k m : ℕ} (h : word.toNat = 2 ^ k * (2 * m + 1)) :
    word.getLsbD k = true ∧ ∀ i < k, word.getLsbD i = false := by
  have hpos : 0 < 2 ^ k := Nat.two_pow_pos k
  have hbit (i : ℕ) : word.getLsbD i = if i < k then false else (2 * m + 1).testBit (i - k) := by
    rw [← BitVec.testBit_toNat, h, ← Nat.add_zero (2 ^ k * (2 * m + 1)),
      Nat.testBit_two_pow_mul_add _ (by omega)]
    simp
  refine ⟨by simp [hbit], fun i hi => by simp [hbit, hi]⟩

/-- Clearing the lowest set bit drops the first entry of the enumeration. -/
theorem bits_lowest {word : Word} {k m : ℕ} (h : word.toNat = 2 ^ k * (2 * m + 1)) :
    bits word = k :: bits (word &&& (word - 1)) := by
  obtain ⟨hk, hlow⟩ := getLsbD_lowest h
  have hmem (i : ℕ) : i ∈ bits (word &&& (word - 1)) ↔ i ∈ bits word ∧ i ≠ k := by
    rw [mem_bits, mem_bits, getLsbD_and_sub_one h, Bool.and_eq_true, decide_eq_true_eq]
  have hlt (i : ℕ) (hi : i ∈ bits (word &&& (word - 1))) : k < i := by
    obtain ⟨hi, hne⟩ := (hmem i).mp hi
    by_contra hle
    rw [mem_bits, hlow i (by omega)] at hi
    exact Bool.false_ne_true hi
  have hsorted : (k :: bits (word &&& (word - 1))).Pairwise (· < ·) :=
    List.pairwise_cons.mpr ⟨hlt, bits_pairwise _⟩
  refine List.Perm.eq_of_pairwise (fun a b _ _ h₁ h₂ => (lt_asymm h₁ h₂).elim)
    (bits_pairwise word) hsorted ?_
  refine (List.perm_ext_iff_of_nodup (bits_nodup word)
    (List.nodup_cons.mpr ⟨fun hk' => lt_irrefl k (hlt k hk'), bits_nodup _⟩)).mpr fun i => ?_
  rw [List.mem_cons, hmem]
  by_cases hi : i = k
  · simp [hi, hk]
  · simp [hi]

/-- The lowest bit is the first one. -/
theorem countrZero_eq_head (word : Word) : countrZero word = (bits word).headD 64 := by
  rw [countrZero, bits, ← List.head?_filter]
  cases (List.range 64).filter fun i => word.getLsbD i <;> rfl

/-- The loop finds the set bits in ascending order. -/
theorem popOffset_eq_getD (i : ℕ) (word : Word) : popOffset i word = (bits word).getD i 64 := by
  induction i generalizing word with
  | zero => rw [popOffset, countrZero_eq_head]; cases bits word <;> rfl
  | succ i ih =>
    rw [popOffset, ih]
    by_cases h : word = 0
    · subst h
      have h0 : bits (0 : Word) = [] := bits_eq_nil_iff.mpr rfl
      rw [show (0 : Word) &&& (0 - 1) = 0 from BitVec.zero_and, h0]
      rfl
    · obtain ⟨k, m, hk⟩ := toNat_eq_lowest h
      rw [bits_lowest hk, List.getD_cons_succ]

/-- Running `i` over the bit count visits exactly the set bits, each once, ascending. -/
theorem map_popOffset_range (word : Word) :
    (List.range (popCount word)).map (fun i => popOffset i word) = bits word := by
  rw [popCount_eq_length]
  apply List.ext_getElem
  · simp
  · intro i h₁ h₂
    rw [List.getElem_map, List.getElem_range, popOffset_eq_getD, List.getD_eq_getElem _ _ h₂]

/-- A flag that is counted is a bit of the word. -/
theorem popOffset_mem_bits {i : ℕ} {word : Word} (h : i < popCount word) :
    popOffset i word ∈ bits word := by
  rw [← map_popOffset_range]
  exact List.mem_map_of_mem (List.mem_range.mpr h)

/-- The word `1ULL << k`. -/
def flag (k : ℕ) : Word := 1#64 <<< k

section Flags

variable {word : Word} {k : ℕ}

/-- The bits of a flag. -/
theorem getLsbD_flag (hk : k < 64) (i : ℕ) : (flag k).getLsbD i = decide (i = k) := by
  rw [flag, ← BitVec.twoPow_eq, BitVec.getLsbD_twoPow]
  simp [hk, eq_comm]

/-- The bits of a word with a flag set. -/
theorem getLsbD_or_flag (hk : k < 64) (i : ℕ) :
    (word ||| flag k).getLsbD i = (word.getLsbD i || decide (i = k)) := by
  rw [BitVec.getLsbD_or, getLsbD_flag hk]

/-- The bits of a word with a flag cleared. -/
theorem getLsbD_and_not_flag (hk : k < 64) (i : ℕ) :
    (word &&& ~~~flag k).getLsbD i = (word.getLsbD i && !decide (i = k)) := by
  rw [BitVec.getLsbD_and, BitVec.getLsbD_not, getLsbD_flag hk]
  by_cases hi : i < 64
  · simp [hi]
  · simp [BitVec.getLsbD_of_ge word i (by omega)]

/-- Testing a flag with a bitwise and. -/
theorem and_flag_eq_zero_iff (hk : k < 64) : word &&& flag k = 0 ↔ word.getLsbD k = false := by
  rw [word_eq_zero_iff]
  constructor
  · intro h
    have hk' := h k
    rwa [BitVec.getLsbD_and, getLsbD_flag hk, decide_eq_true rfl, Bool.and_true] at hk'
  · intro h i
    rw [BitVec.getLsbD_and, getLsbD_flag hk]
    by_cases hi : i = k
    · simp [hi, h]
    · simp [hi]

/-- Adding a clear flag sets it and carries nowhere. -/
theorem add_flag (hk : k < 64) (h : word.getLsbD k = false) : word + flag k = word ||| flag k :=
  BitVec.add_eq_or_of_and_eq_zero _ _ ((and_flag_eq_zero_iff hk).mpr h)

/-- Subtracting a set flag clears it and borrows nowhere. -/
theorem sub_flag (hk : k < 64) (h : word.getLsbD k = true) :
    word - flag k = word &&& ~~~flag k := by
  have hclear : (word &&& ~~~flag k).getLsbD k = false := by
    rw [getLsbD_and_not_flag hk, decide_eq_true rfl, Bool.not_true, Bool.and_false]
  have hadd : (word &&& ~~~flag k) + flag k = word := by
    rw [add_flag hk hclear]
    refine BitVec.eq_of_getLsbD_eq fun i _ => ?_
    rw [getLsbD_or_flag hk, getLsbD_and_not_flag hk]
    by_cases hi : i = k
    · simp [hi, h]
    · simp [hi]
  exact (BitVec.eq_sub_iff_add_eq.mpr hadd).symm

/-- A word is one flag exactly when its enumeration is that flag alone. -/
theorem eq_flag_iff (hk : k < 64) : word = flag k ↔ ∀ i, word.getLsbD i = decide (i = k) := by
  constructor
  · rintro rfl i
    exact getLsbD_flag hk i
  · intro h
    exact BitVec.eq_of_getLsbD_eq fun i _ => by rw [h, getLsbD_flag hk]

end Flags

end ToggleTree
