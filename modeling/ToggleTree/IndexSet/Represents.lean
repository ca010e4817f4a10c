import ToggleTree.IndexSet.Layout

/-!
# The set that the words represent

`Represents n s S` is the invariant of an index set at rest: the leaves are the
characteristic flags of `S`, and every higher flag says whether the word below it is
nonzero. The words are determined by `S`, and a word is nonzero exactly when `S` has an
element below it. The constructor establishes the invariant.
-/

namespace ToggleTree

namespace IndexSet

/-- The allocated layers, with no flag past the length of a layer. -/
structure Shape (n : ℕ) (s : IndexSet) : Prop where
  size : s.toggle.size = numLayers n
  width : ∀ L < numLayers n, s.width L = layerLength n (L + 1)
  fits : ∀ L < numLayers n, ∀ j, s.bit L j = true → j < layerLength n L

/-- The layered words represent the finite set `S`. -/
structure Represents (n : ℕ) (s : IndexSet) (S : Finset ℕ) : Prop extends Shape n s where
  leaf : ∀ i, s.bit 0 i = true ↔ i ∈ S
  child : ∀ L, L + 1 < numLayers n → ∀ j, s.bit (L + 1) j = true ↔ s.load L j ≠ 0

/-- The ancestor flags of an index of the set are allocated. -/
theorem Shape.inBounds {n : ℕ} {s : IndexSet} (h : Shape n s) {L j : ℕ} (hL : L < numLayers n)
    (hj : j < layerLength n L) : j / 64 < s.width L := by
  rw [h.width L hL]
  exact div_lt_wordCount hj

namespace Represents

variable {n : ℕ} {s : IndexSet} {S : Finset ℕ} (h : Represents n s S)
include h

/-- The elements are below the capacity. -/
theorem lt {i : ℕ} (hi : i ∈ S) : i < n :=
  h.fits 0 (numLayers_pos n) i ((h.leaf i).mpr hi)

/-- A flag is set exactly when the set has an element below it. -/
theorem bit_iff {L : ℕ} (hL : L < numLayers n) (j : ℕ) :
    s.bit L j = true ↔ ∃ i ∈ S, i / 64 ^ L = j := by
  induction L generalizing j with
  | zero => simp [h.leaf]
  | succ L ih =>
    rw [h.child L hL, load_ne_zero_iff]
    constructor
    · rintro ⟨k, rfl, hk⟩
      obtain ⟨i, hi, rfl⟩ := (ih (by omega) k).mp hk
      exact ⟨i, hi, div_pow_succ i L⟩
    · rintro ⟨i, hi, rfl⟩
      exact ⟨i / 64 ^ L, (div_pow_succ i L).symm, (ih (by omega) _).mpr ⟨i, hi, rfl⟩⟩

/-- A word is nonzero exactly when the set has an element below it. -/
theorem load_ne_zero {L : ℕ} (hL : L < numLayers n) (w : ℕ) :
    s.load L w ≠ 0 ↔ ∃ i ∈ S, i / 64 ^ (L + 1) = w := by
  rw [load_ne_zero_iff]
  constructor
  · rintro ⟨k, rfl, hk⟩
    obtain ⟨i, hi, rfl⟩ := (h.bit_iff hL k).mp hk
    exact ⟨i, hi, div_pow_succ i L⟩
  · rintro ⟨i, hi, rfl⟩
    exact ⟨i / 64 ^ L, (div_pow_succ i L).symm, (h.bit_iff hL _).mpr ⟨i, hi, rfl⟩⟩

/-- The root word tells whether the set is empty. -/
theorem root_eq_zero : s.load (numLayers n - 1) 0 = 0 ↔ S = ∅ := by
  have hpos := numLayers_pos n
  rw [← not_iff_not, ← Ne, h.load_ne_zero (by omega), ← Ne, ← Finset.nonempty_iff_ne_empty]
  rw [show numLayers n - 1 + 1 = numLayers n by omega]
  exact ⟨fun ⟨i, hi, _⟩ => ⟨i, hi⟩, fun ⟨i, hi⟩ => ⟨i, hi, div_numLayers (h.lt hi)⟩⟩

/-- The represented set determines every word. -/
theorem load_eq {t : IndexSet} (ht : Represents n t S) {L : ℕ} (hL : L < numLayers n) (w : ℕ) :
    s.load L w = t.load L w := by
  refine BitVec.eq_of_getLsbD_eq fun o ho => ?_
  have hbit (u : IndexSet) : u.bit L (64 * w + o) = (u.load L w).getLsbD o := by
    rw [bit, show (64 * w + o) / 64 = w by omega, show (64 * w + o) % 64 = o by omega]
  rw [← hbit, ← hbit, Bool.eq_iff_iff, h.bit_iff hL, ht.bit_iff hL]

/-- The represented set determines the whole data structure. -/
theorem eq {t : IndexSet} (ht : Represents n t S) : s = t := by
  obtain ⟨a⟩ := s
  obtain ⟨b⟩ := t
  have hsize : a.size = b.size := h.size.trans ht.size.symm
  congr 1
  refine Array.ext hsize fun L h₁ h₂ => ?_
  have hL : L < numLayers n := h.size ▸ h₁
  have hwidth := (h.width L hL).trans (ht.width L hL).symm
  simp only [width, Array.getD_eq_getD_getElem?, Array.getElem?_eq_getElem h₁,
    Array.getElem?_eq_getElem h₂, Option.getD_some] at hwidth
  refine Array.ext hwidth fun w h₃ h₄ => ?_
  have hload := h.load_eq ht hL w
  simpa only [load, Array.getD_eq_getD_getElem?, Array.getElem?_eq_getElem h₁,
    Array.getElem?_eq_getElem h₂, Option.getD_some, Array.getElem?_eq_getElem h₃,
    Array.getElem?_eq_getElem h₄] using hload

end Represents

section Create

/-- The bits below a flag. -/
theorem getLsbD_flag_sub_one {k : ℕ} (hk : k < 64) (i : ℕ) :
    (flag k - 1).getLsbD i = decide (i < k) := by
  have h1 : (1 : Word).toNat = 1 := rfl
  have hpow : 2 ^ k < 2 ^ 64 := Nat.pow_lt_pow_right (by norm_num) hk
  have hflag : (flag k).toNat = 2 ^ k := by
    rw [flag, ← BitVec.twoPow_eq, BitVec.toNat_twoPow, Nat.mod_eq_of_lt hpow]
  have hle : (1 : Word) ≤ flag k := by
    rw [BitVec.le_def, h1, hflag]
    exact Nat.one_le_two_pow
  rw [← BitVec.testBit_toNat, BitVec.toNat_sub_of_le hle, hflag, h1, Nat.testBit_two_pow_sub_one]

/-- The number of words of a layer. -/
theorem size_initLayer (length : ℕ) (b : Bool) : (initLayer length b).size = wordCount length := by
  have h : (length + 63) >>> 6 = wordCount length := shiftRight_six _
  simp only [initLayer, h]
  split <;> simp

/-- A fresh layer has all its flags set or all clear. -/
theorem getLsbD_initLayer (length : ℕ) (b : Bool) (w o : ℕ) (ho : o < 64) :
    ((initLayer length b).getD w 0).getLsbD o = (b && decide (64 * w + o < length)) := by
  have hcount : (length + 63) >>> 6 = wordCount length := shiftRight_six _
  have hmod : length &&& 63 = length % 64 := Nat.and_two_pow_sub_one_eq_mod length 6
  by_cases hw : w < wordCount length
  · cases b with
    | false => simp [initLayer, hcount, hw]
    | true =>
      simp only [initLayer, hcount, hmod, true_and, if_true, Array.size_replicate, Bool.true_and]
      split
      · next hne =>
        by_cases hlast : w = wordCount length - 1
        · subst hlast
          simp only [Array.getD_eq_getD_getElem?, Array.getElem?_setIfInBounds,
            Array.size_replicate, hw, if_true, Option.getD_some]
          rw [getLsbD_flag_sub_one (by omega)]
          congr 1
          rw [wordCount] at hw ⊢
          exact propext (by omega)
        · have hlt : 64 * w + o < length := by rw [wordCount] at hw hlast; omega
          simp only [Array.getD_eq_getD_getElem?, Array.getElem?_setIfInBounds, Ne.symm hlast,
            if_false, Array.getElem?_replicate, hw, if_true, Option.getD_some,
            BitVec.getLsbD_allOnes, ho, hlt]
      · next hne =>
        have hlt : 64 * w + o < length := by rw [wordCount] at hw; omega
        simp only [Array.getD_eq_getD_getElem?, Array.getElem?_replicate, hw, if_true,
          Option.getD_some, BitVec.getLsbD_allOnes, ho, hlt]
  · have hsize : (initLayer length b).size ≤ w := by rw [size_initLayer]; omega
    rw [Array.getD_eq_getD_getElem?, Array.getElem?_eq_none hsize, Option.getD_none]
    rw [wordCount] at hw
    simp [show ¬64 * w + o < length by omega]

/-- The layers at the start. -/
theorem getElem?_initLayers (layers length : ℕ) (b : Bool) (L : ℕ) (hL : L < layers) :
    (initLayers layers length b)[L]? = some (initLayer (layerLength length L) b) := by
  induction layers generalizing length L with
  | zero => omega
  | succ layers ih =>
    cases L with
    | zero => rfl
    | succ L =>
      rw [initLayers, List.getElem?_cons_succ, ih _ _ (by omega), layerLength_succ_comm,
        shiftRight_six]
      rfl

/-- The number of layers at the start. -/
theorem length_initLayers (layers length : ℕ) (b : Bool) :
    (initLayers layers length b).length = layers := by
  induction layers generalizing length with
  | zero => rfl
  | succ layers ih => simp [initLayers, ih]

variable (n : ℕ) (b : Bool)

/-- A layer of a new set. -/
theorem getD_create {L : ℕ} (hL : L < numLayers n) :
    (create n b).toggle.getD L #[] = initLayer (layerLength n L) b := by
  rw [create, Array.getD_eq_getD_getElem?, List.getElem?_toArray, ← numLayers,
    getElem?_initLayers _ _ _ _ hL, Option.getD_some]

/-- The bits of a new set. -/
theorem bit_create {L : ℕ} (hL : L < numLayers n) (j : ℕ) :
    (create n b).bit L j = (b && decide (j < layerLength n L)) := by
  rw [bit, load, getD_create n b hL, getLsbD_initLayer _ _ _ _ (Nat.mod_lt _ (by norm_num)),
    Nat.div_add_mod]

/-- The constructor builds the full set or the empty one. -/
theorem represents_create : Represents n (create n b) (if b then Finset.range n else ∅) where
  size := by rw [create, List.size_toArray, length_initLayers]; rfl
  width L hL := by rw [width, getD_create n b hL, size_initLayer]; rfl
  fits L hL j hj := by
    rw [bit_create n b hL, Bool.and_eq_true, decide_eq_true_eq] at hj
    exact hj.2
  leaf i := by
    rw [bit_create n b (numLayers_pos n), Bool.and_eq_true, decide_eq_true_eq]
    cases b <;> simp [layerLength]
  child L hL j := by
    rw [bit_create n b hL, load_ne_zero_iff, Bool.and_eq_true, decide_eq_true_eq]
    simp only [bit_create n b (show L < numLayers n by omega), Bool.and_eq_true, decide_eq_true_eq]
    constructor
    · rintro ⟨hb, hj⟩
      rw [layerLength, wordCount] at hj
      exact ⟨64 * j, by omega, hb, by omega⟩
    · rintro ⟨k, rfl, hb, hk⟩
      exact ⟨hb, div_lt_wordCount hk⟩

end Create

end IndexSet

end ToggleTree
