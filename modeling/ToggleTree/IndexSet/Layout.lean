import ToggleTree.IndexSet.Basic

/-!
# Layout of the layered words

Layer `L` of a set of size `n` has `layerLength n L` flags; flag `j` of layer `L` stands for
the indices `i` with `i / 64 ^ L = j` and is stored in word `j / 64`. This module relates the
shifts of the code to these quotients and says what a single store changes.
-/

namespace ToggleTree

namespace IndexSet

/-- The number of words that hold `length` flags. -/
def wordCount (length : ℕ) : ℕ := (length + 63) / 64

/-- The number of flags of a layer. -/
def layerLength (n : ℕ) : ℕ → ℕ
  | 0 => n
  | layer + 1 => wordCount (layerLength n layer)

/-- The number of layers that the constructor allocates. -/
def numLayers (n : ℕ) : ℕ := countLayers ((n + 63) >>> 6)

/-- A shift by six bits for each layer divides by a power of 64. -/
theorem shiftRight_six_mul (i k : ℕ) : i >>> (6 * k) = i / 64 ^ k := by
  rw [Nat.shiftRight_eq_div_pow, pow_mul]
  norm_num

/-- A shift by six bits divides by 64. -/
theorem shiftRight_six (i : ℕ) : i >>> 6 = i / 64 := by
  simpa using shiftRight_six_mul i 1

/-- Dividing by one more power of 64. -/
theorem div_pow_succ (i L : ℕ) : i / 64 ^ (L + 1) = i / 64 ^ L / 64 := by
  rw [pow_succ, Nat.div_div_eq_div_mul]

/-- The word of an index in a layer. -/
theorem wordId_eq (L i : ℕ) : wordId L i = i / 64 ^ L / 64 := by
  rw [wordId, shiftRight_six_mul, div_pow_succ]

/-- The flag of an index in a layer. -/
theorem wordOffset_eq (L i : ℕ) : wordOffset L i = flag (i / 64 ^ L % 64) := by
  rw [wordOffset, shiftRight_six_mul, show (63 : ℕ) = 2 ^ 6 - 1 from rfl, Nat.and_two_pow_sub_one_eq_mod]

/-- The index of the first leaf below a flag. -/
theorem offsetIndex_eq (L o : ℕ) : offsetIndex L o = o * 64 ^ L := by
  rw [offsetIndex, Nat.shiftLeft_eq, pow_mul]
  norm_num

/-- An index has a word in its layer. -/
theorem div_lt_wordCount {j length : ℕ} (h : j < length) : j / 64 < wordCount length := by
  rw [wordCount]
  omega

/-- The ancestors of a valid index are valid flags of their layers. -/
theorem div_lt_layerLength {n i : ℕ} (h : i < n) (L : ℕ) : i / 64 ^ L < layerLength n L := by
  induction L with
  | zero => simpa [layerLength] using h
  | succ L ih =>
    rw [div_pow_succ]
    exact div_lt_wordCount ih

/-- The layers above the first one are those of its words. -/
theorem layerLength_succ_comm (n L : ℕ) : layerLength n (L + 1) = layerLength (wordCount n) L := by
  induction L with
  | zero => rfl
  | succ L ih =>
    rw [layerLength, ih]
    rfl

/-- There is at least one layer above any length. -/
theorem countLayers_pos (length : ℕ) : 0 < countLayers length := by
  unfold countLayers
  split <;> omega

/-- There is at least one layer. -/
theorem numLayers_pos (n : ℕ) : 0 < numLayers n := countLayers_pos _

/-- Above the last layer there is at most one flag. -/
theorem layerLength_countLayers (length : ℕ) : layerLength length (countLayers length - 1) ≤ 1 := by
  induction length using Nat.strong_induction_on with
  | _ length ih =>
    unfold countLayers
    split
    · have hlt : wordCount length < length := by rw [wordCount]; omega
      have := ih _ hlt
      rw [show (length + 63) >>> 6 = wordCount length from shiftRight_six _]
      have hpos := countLayers_pos (wordCount length)
      obtain ⟨k, hk⟩ := Nat.exists_eq_add_of_lt hpos
      rw [hk] at this ⊢
      rw [show 0 + k + 1 + 1 - 1 = k + 1 by omega, layerLength_succ_comm]
      rwa [show 0 + k + 1 - 1 = k by omega] at this
    · simpa [layerLength] using by omega

/-- Above the last layer there is at most one word. -/
theorem layerLength_numLayers (n : ℕ) : layerLength n (numLayers n) ≤ 1 := by
  have h := layerLength_countLayers (wordCount n)
  have hpos := numLayers_pos n
  have hn : numLayers n = countLayers (wordCount n) := by rw [numLayers, shiftRight_six]; rfl
  rw [← hn] at h
  obtain ⟨k, hk⟩ := Nat.exists_eq_add_of_lt hpos
  rw [hk] at h ⊢
  rw [zero_add, layerLength_succ_comm]
  simpa using h

/-- All valid indices lie below the root word. -/
theorem div_numLayers {n i : ℕ} (h : i < n) : i / 64 ^ numLayers n = 0 := by
  exact Nat.lt_one_iff.mp ((div_lt_layerLength h _).trans_le (layerLength_numLayers n))

/-- The number of layers bounds every shift count below the word size. -/
theorem numLayers_le {n : ℕ} (h : n ≤ 2 ^ 60) : numLayers n ≤ 10 := by
  have key : ∀ k length, length ≤ 64 ^ k → countLayers length ≤ k + 1 := by
    intro k
    induction k with
    | zero =>
      intro length hl
      unfold countLayers
      rw [if_neg (by omega)]
    | succ k ih =>
      intro length hl
      unfold countLayers
      split
      · have : (length + 63) >>> 6 ≤ 64 ^ k := by
          rw [shiftRight_six]
          rw [pow_succ] at hl
          omega
        have := ih _ this
        omega
      · omega
  refine key 9 _ ?_
  rw [shiftRight_six]
  norm_num at h ⊢
  omega

section Store

variable (s : IndexSet) (L w : ℕ) (x : Word)

/-- Storing a word keeps the number of layers. -/
@[simp] theorem size_store : (s.store L w x).toggle.size = s.toggle.size := by simp [store]

/-- Storing a word keeps the lengths of the layers. -/
@[simp] theorem width_store (K : ℕ) : (s.store L w x).width K = s.width K := by
  simp only [width, store, Array.getD_eq_getD_getElem?, Array.getElem?_modify]
  split
  · next h =>
    subst h
    cases s.toggle[L]? <;> simp
  · rfl

/-- A store inside the allocated words changes that word only. -/
theorem load_store (h : w < s.width L) (K v : ℕ) :
    (s.store L w x).load K v = if K = L ∧ v = w then x else s.load K v := by
  simp only [load, store, Array.getD_eq_getD_getElem?, Array.getElem?_modify]
  by_cases hK : L = K
  · subst hK
    simp only [width, Array.getD_eq_getD_getElem?] at h
    cases hw : s.toggle[L]? with
    | none => simp [hw] at h
    | some words =>
      simp only [hw, Option.getD_some] at h
      by_cases hv : v = w
      · subst hv
        simp [h]
      · simp [hv, Ne.symm hv]
  · simp [hK, Ne.symm hK]

/-- A word that does not exist is read as 0. -/
theorem load_eq_zero_of_width_le (h : s.width L ≤ w) : s.load L w = 0 := by
  rw [load, Array.getD_eq_getD_getElem?, Array.getElem?_eq_none (by exact h), Option.getD_none]

end Store

/-- Flag `j` of layer `L`. -/
def bit (s : IndexSet) (L j : ℕ) : Bool := (s.load L (j / 64)).getLsbD (j % 64)

/-- A word is 0 if all its bits are clear. -/
theorem load_eq_zero_iff (s : IndexSet) (L w : ℕ) :
    s.load L w = 0 ↔ ∀ o < 64, s.bit L (64 * w + o) = false := by
  rw [word_eq_zero_iff]
  constructor
  · intro h o ho
    rw [bit, show (64 * w + o) / 64 = w by omega]
    exact h _
  · intro h o
    by_cases ho : o < 64
    · have := h o ho
      rwa [bit, show (64 * w + o) / 64 = w by omega, show (64 * w + o) % 64 = o by omega] at this
    · exact BitVec.getLsbD_of_ge _ _ (by omega)

/-- A nonzero word has a set flag. -/
theorem load_ne_zero_iff (s : IndexSet) (L w : ℕ) :
    s.load L w ≠ 0 ↔ ∃ j, j / 64 = w ∧ s.bit L j = true := by
  rw [Ne, load_eq_zero_iff]
  constructor
  · intro h
    push Not at h
    obtain ⟨o, ho, hb⟩ := h
    exact ⟨64 * w + o, by omega, by simpa using hb⟩
  · rintro ⟨j, rfl, hb⟩ h
    have := h (j % 64) (Nat.mod_lt _ (by norm_num))
    rw [Nat.div_add_mod, hb] at this
    exact Bool.false_ne_true this.symm

/-- Replacing the word of flag `j` by one that differs in that flag at most. -/
theorem bit_store {s : IndexSet} {L j : ℕ} {x : Word} (h : j / 64 < s.width L) (K k : ℕ) :
    (s.store L (j / 64) x).bit K k =
      if K = L ∧ k / 64 = j / 64 then x.getLsbD (k % 64) else s.bit K k := by
  rw [bit, load_store _ _ _ _ h]
  split
  · rfl
  · rfl

/-- Set flag `j` of layer `L`. -/
def setBit (s : IndexSet) (L j : ℕ) : IndexSet :=
  s.store L (j / 64) (s.load L (j / 64) ||| flag (j % 64))

/-- Clear flag `j` of layer `L`. -/
def clearBit (s : IndexSet) (L j : ℕ) : IndexSet :=
  s.store L (j / 64) (s.load L (j / 64) &&& ~~~flag (j % 64))

/-- The bits after one is set. -/
theorem bit_setBit {s : IndexSet} {L j : ℕ} (h : j / 64 < s.width L) (K k : ℕ) :
    (s.setBit L j).bit K k = (s.bit K k || decide (K = L ∧ k = j)) := by
  rw [setBit, bit_store h]
  split
  · next hk =>
    obtain ⟨rfl, hk⟩ := hk
    rw [getLsbD_or_flag (Nat.mod_lt _ (by norm_num)), bit, hk]
    congr 2
    simp only [true_and, eq_iff_iff]
    omega
  · next hk =>
    rw [decide_eq_false (by rintro ⟨rfl, rfl⟩; exact hk ⟨rfl, rfl⟩), Bool.or_false]

/-- The bits after one is cleared. -/
theorem bit_clearBit {s : IndexSet} {L j : ℕ} (h : j / 64 < s.width L) (K k : ℕ) :
    (s.clearBit L j).bit K k = (s.bit K k && !decide (K = L ∧ k = j)) := by
  rw [clearBit, bit_store h]
  split
  · next hk =>
    obtain ⟨rfl, hk⟩ := hk
    rw [getLsbD_and_not_flag (Nat.mod_lt _ (by norm_num)), bit, hk]
    congr 3
    simp only [true_and, eq_iff_iff]
    omega
  · next hk =>
    rw [decide_eq_false (by rintro ⟨rfl, rfl⟩; exact hk ⟨rfl, rfl⟩), Bool.not_false, Bool.and_true]

end IndexSet

end ToggleTree
