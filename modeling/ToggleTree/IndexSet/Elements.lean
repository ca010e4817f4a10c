import Mathlib.Data.Finset.Sort
import ToggleTree.IndexSet.Represents

/-!
# The elements below a node

Node `(K, v)` of the tree stands for the indices `i` with `i / 64 ^ K = v`: nodes of height 0
are the indices themselves, node `(L + 1, w)` is word `w` of layer `L`. The elements of the
set below a word are those of the children that its flags name, in the order of the flags.
-/

namespace ToggleTree

namespace IndexSet

variable {n : ℕ} {s : IndexSet} {S : Finset ℕ}

/-- The elements of `S` below node `(K, v)`, ascending. -/
def below (S : Finset ℕ) (K v : ℕ) : List ℕ :=
  (S.sort (· ≤ ·)).filter fun i => decide (i / 64 ^ K = v)

/-- The elements below a node. -/
@[simp] theorem mem_below {K v i : ℕ} : i ∈ below S K v ↔ i ∈ S ∧ i / 64 ^ K = v := by
  simp [below]

/-- The elements below a node increase. -/
theorem below_pairwise (S : Finset ℕ) (K v : ℕ) : (below S K v).Pairwise (· < ·) :=
  (Finset.sortedLT_sort S).pairwise.filter _

/-- Ascending lists with the same entries are equal. -/
theorem eq_of_pairwise_lt {as bs : List ℕ} (ha : as.Pairwise (· < ·)) (hb : bs.Pairwise (· < ·))
    (h : ∀ i, i ∈ as ↔ i ∈ bs) : as = bs := by
  have hperm : as.Perm bs := (List.perm_ext_iff_of_nodup (ha.imp ne_of_lt) (hb.imp ne_of_lt)).mpr h
  exact hperm.eq_of_pairwise (fun a b _ _ h₁ h₂ => (lt_asymm h₁ h₂).elim) ha hb

/-- Below an index there is at most itself. -/
theorem below_zero (S : Finset ℕ) (i : ℕ) : below S 0 i = if i ∈ S then [i] else [] := by
  refine eq_of_pairwise_lt (below_pairwise S 0 i) ?_ fun j => ?_
  · split <;> simp
  · rw [mem_below, pow_zero, Nat.div_one]
    split
    · next hi =>
      rw [List.mem_singleton]
      exact ⟨And.right, fun h => ⟨h ▸ hi, h⟩⟩
    · next hi =>
      refine iff_of_false ?_ List.not_mem_nil
      rintro ⟨hj, rfl⟩
      exact hi hj

namespace Represents

variable (h : Represents n s S)
include h

/-- Every element lies below the root. -/
theorem below_root : below S (numLayers n) 0 = S.sort (· ≤ ·) := by
  refine List.filter_eq_self.mpr fun i hi => ?_
  rw [decide_eq_true_eq]
  exact div_numLayers (h.lt ((Finset.mem_sort _).mp hi))

/-- A flag of a word tells whether its child has elements. -/
theorem mem_bits_load {L : ℕ} (hL : L < numLayers n) (w o : ℕ) :
    o ∈ bits (s.load L w) ↔ o < 64 ∧ ∃ i ∈ S, i / 64 ^ L = 64 * w + o := by
  rw [mem_bits]
  constructor
  · intro ho
    have hlt : o < 64 := bits_lt (mem_bits.mpr ho)
    refine ⟨hlt, (h.bit_iff hL _).mp ?_⟩
    rwa [bit, show (64 * w + o) / 64 = w by omega, show (64 * w + o) % 64 = o by omega]
  · rintro ⟨hlt, hex⟩
    have := (h.bit_iff hL _).mpr hex
    rwa [bit, show (64 * w + o) / 64 = w by omega, show (64 * w + o) % 64 = o by omega] at this

/-- Restricted to the indices that satisfy `p`, the elements below a word are those below
the children named by `flags`, if these are the flags of the children with such elements. -/
theorem below_word_filter {L : ℕ} (hL : L < numLayers n) (w : ℕ) (p : ℕ → Bool) {flags : Word}
    (hflags : ∀ o, o ∈ bits flags → o ∈ bits (s.load L w))
    (hall : ∀ o < 64, ∀ i ∈ S, p i = true → i / 64 ^ L = 64 * w + o → o ∈ bits flags) :
    (below S (L + 1) w).filter p =
      (bits flags).flatMap fun o => (below S L (64 * w + o)).filter p := by
  refine eq_of_pairwise_lt ((below_pairwise S (L + 1) w).filter _) ?_ fun i => ?_
  · refine List.pairwise_flatMap.mpr ⟨fun o _ => (below_pairwise S L _).filter _, ?_⟩
    refine (bits_pairwise flags).imp fun {o o'} hoo' i hi j hj => ?_
    rw [List.mem_filter, mem_below] at hi hj
    by_contra hle
    have : j / 64 ^ L ≤ i / 64 ^ L := Nat.div_le_div_right (by omega)
    omega
  · simp only [List.mem_filter, mem_below, List.mem_flatMap, div_pow_succ]
    constructor
    · rintro ⟨⟨hi, rfl⟩, hp⟩
      have ho : i / 64 ^ L = 64 * (i / 64 ^ L / 64) + i / 64 ^ L % 64 := (Nat.div_add_mod _ _).symm
      exact ⟨i / 64 ^ L % 64, hall _ (Nat.mod_lt _ (by norm_num)) i hi hp ho, ⟨hi, ho⟩, hp⟩
    · rintro ⟨o, ho, ⟨hi, hio⟩, hp⟩
      have := ((h.mem_bits_load hL w o).mp (hflags o ho)).1
      exact ⟨⟨hi, by omega⟩, hp⟩

/-- The elements below a word are those below the children that its flags name. -/
theorem below_word {L : ℕ} (hL : L < numLayers n) (w : ℕ) :
    below S (L + 1) w = (bits (s.load L w)).flatMap fun o => below S L (64 * w + o) := by
  have hword := h.below_word_filter hL w (fun _ => true) (fun _ ho => ho)
    fun o ho i hi _ hio => (h.mem_bits_load hL w o).mpr ⟨ho, i, hi, hio⟩
  simpa using hword

end Represents

end IndexSet

end ToggleTree
