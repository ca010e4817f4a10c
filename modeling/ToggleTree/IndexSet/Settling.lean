import Mathlib.Data.Multiset.Count
import ToggleTree.IndexSet.Represents

/-!
# Layers with updates in flight

An `insert` that makes a word nonzero owes the flag of that word to the layer above until
its next step; a `remove` that empties a word owes a subtraction there. `Settling` records
a state in which the flags that disagree with their words are exactly the owed ones, each
owed once, and all of them on the same side. The four step lemmas say how the atomic
operations of the two updates move what is owed.
-/

namespace ToggleTree

namespace IndexSet

/-- A flag above layer `L` tells whether the word below it is nonzero. -/
def Agrees (s : IndexSet) (L j : ℕ) : Prop := s.bit (L + 1) j = true ↔ s.load L j ≠ 0

/-- The layers agree except for owed flags; `up` is true while flags are being set. -/
structure Settling (up : Bool) (n : ℕ) (s : IndexSet) (owed : Multiset (ℕ × ℕ)) : Prop
    extends Shape n s where
  nodup : owed.Nodup
  mem : ∀ K j, (K, j) ∈ owed ↔ ∃ L, K = L + 1 ∧ L + 1 < numLayers n ∧ ¬s.Agrees L j
  sided : ∀ L j, L + 1 < numLayers n → s.Agrees L j ∨ s.bit (L + 1) j = !up

/-- A state at rest owes nothing. -/
theorem Represents.settling {n : ℕ} {s : IndexSet} {S : Finset ℕ} (h : Represents n s S) (up : Bool) :
    Settling up n s 0 where
  toShape := h.toShape
  nodup := Multiset.nodup_zero
  mem K j := by
    simp only [Multiset.notMem_zero, false_iff, not_exists, not_and, not_not]
    exact fun L _ hL => h.child L hL j
  sided L j hL := Or.inl (h.child L hL j)

/-- A state that owes nothing is at rest. -/
theorem Settling.represents {up : Bool} {n : ℕ} {s : IndexSet} {S : Finset ℕ}
    (h : Settling up n s 0) (hleaf : ∀ i, s.bit 0 i = true ↔ i ∈ S) : Represents n s S where
  toShape := h.toShape
  leaf := hleaf
  child L hL j := by
    by_contra hne
    exact Multiset.notMem_zero _ ((h.mem (L + 1) j).mpr ⟨L, rfl, hL, hne⟩)

section SetBit

variable {s : IndexSet} {L j : ℕ} (h : j / 64 < s.width L)
include h

/-- The words that are not 0 after a bit is set. -/
theorem load_setBit_ne_zero (K w : ℕ) :
    (s.setBit L j).load K w ≠ 0 ↔ s.load K w ≠ 0 ∨ K = L ∧ w = j / 64 := by
  simp only [load_ne_zero_iff, bit_setBit h, Bool.or_eq_true, decide_eq_true_eq]
  constructor
  · rintro ⟨k, rfl, hk | ⟨rfl, rfl⟩⟩
    · exact Or.inl ⟨k, rfl, hk⟩
    · exact Or.inr ⟨rfl, rfl⟩
  · rintro (⟨k, rfl, hk⟩ | ⟨rfl, rfl⟩)
    · exact ⟨k, rfl, Or.inl hk⟩
    · exact ⟨j, rfl, Or.inr ⟨rfl, rfl⟩⟩

/-- Other words keep whether they are zero when one flag is cleared. -/
theorem load_clearBit_of_ne (K w : ℕ) (hne : ¬(K = L ∧ w = j / 64)) :
    (s.clearBit L j).load K w = s.load K w := by
  rw [clearBit, load_store _ _ _ _ h, if_neg hne]

/-- Clearing a set flag empties its word exactly when it was the only one. -/
theorem load_clearBit_eq_zero (hset : s.bit L j = true) :
    (s.clearBit L j).load L (j / 64) = 0 ↔ s.load L (j / 64) = flag (j % 64) := by
  have hmod : j % 64 < 64 := Nat.mod_lt _ (by norm_num)
  rw [clearBit, load_store _ _ _ _ h, if_pos ⟨rfl, rfl⟩, word_eq_zero_iff, eq_flag_iff hmod]
  simp only [getLsbD_and_not_flag hmod]
  refine forall_congr' fun i => ?_
  by_cases hi : i = j % 64
  · subst hi
    rw [show (s.load L (j / 64)).getLsbD (j % 64) = true from hset]
    simp
  · simp [hi]

/-- Setting a bit of a node keeps the shape. -/
theorem shape_setBit {n : ℕ} (hs : Shape n s) (hj : L < numLayers n → j < layerLength n L) :
    Shape n (s.setBit L j) where
  size := by rw [setBit, size_store, hs.size]
  width K hK := by rw [setBit, width_store, hs.width K hK]
  fits K hK k hk := by
    rw [bit_setBit h, Bool.or_eq_true, decide_eq_true_eq] at hk
    rcases hk with hk | ⟨rfl, rfl⟩
    · exact hs.fits K hK k hk
    · exact hj hK

/-- Clearing a bit keeps the shape. -/
theorem shape_clearBit {n : ℕ} (hs : Shape n s) : Shape n (s.clearBit L j) where
  size := by rw [clearBit, size_store, hs.size]
  width K hK := by rw [clearBit, width_store, hs.width K hK]
  fits K hK k hk := by
    rw [bit_clearBit h, Bool.and_eq_true] at hk
    exact hs.fits K hK k hk.1

end SetBit

/-- What a step at layer `L` hands to the layer above, if there is one. -/
def handOver (n L j : ℕ) (changed : Prop) [Decidable changed] : Multiset (ℕ × ℕ) :=
  if changed ∧ L + 1 < numLayers n then {(L + 1, j / 64)} else 0

/-- A node that is handed over. -/
theorem mem_handOver {n L j : ℕ} {changed : Prop} [Decidable changed] {p : ℕ × ℕ} :
    p ∈ handOver n L j changed ↔ changed ∧ L + 1 < numLayers n ∧ p = (L + 1, j / 64) := by
  unfold handOver
  split <;> simp_all

/-- Nothing is handed over twice. -/
theorem nodup_handOver (n L j : ℕ) (changed : Prop) [Decidable changed] :
    (handOver n L j changed).Nodup := by
  unfold handOver
  split
  · exact Multiset.nodup_singleton _
  · exact Multiset.nodup_zero

namespace Settling

variable {up : Bool} {n : ℕ} {s t : IndexSet} {owed : Multiset (ℕ × ℕ)}

/-- A step that settles the flags in `resolved` and unsettles those in `created`. -/
theorem move (resolved : Multiset (ℕ × ℕ)) {created : Multiset (ℕ × ℕ)} (h : Settling up n s (resolved + owed))
    (hshape : Shape n t) (hnodup : created.Nodup)
    (hcreated : ∀ K k, (K, k) ∈ created → (K, k) ∉ owed ∧
      ∃ L, K = L + 1 ∧ L + 1 < numLayers n ∧ t.bit K k = !up)
    (hagree : ∀ K k, K + 1 < numLayers n → (t.Agrees K k ↔
      (s.Agrees K k ∨ (K + 1, k) ∈ resolved) ∧ (K + 1, k) ∉ created))
    (hbit : ∀ K k, (K + 1, k) ∉ resolved → t.bit (K + 1) k = s.bit (K + 1) k) :
    Settling up n t (owed + created) where
  toShape := hshape
  nodup := by
    refine Multiset.nodup_add.mpr ⟨(Multiset.nodup_add.mp h.nodup).2.1, hnodup, ?_⟩
    rw [Multiset.disjoint_right]
    exact fun {p} hp => (hcreated p.1 p.2 hp).1
  mem K k := by
    have hmem := h.mem K k
    have hdisj : (K, k) ∈ resolved → (K, k) ∉ owed := fun hr =>
      Multiset.disjoint_left.mp (Multiset.nodup_add.mp h.nodup).2.2 hr
    rw [Multiset.mem_add] at hmem ⊢
    constructor
    · rintro (hp | hp)
      · obtain ⟨L, rfl, hL, hne⟩ := hmem.mp (Or.inr hp)
        refine ⟨L, rfl, hL, fun ht => ?_⟩
        rcases ((hagree L k hL).mp ht).1 with ha | hr
        · exact hne ha
        · exact hdisj hr hp
      · obtain ⟨_, L, rfl, hL, _⟩ := hcreated K k hp
        exact ⟨L, rfl, hL, fun ht => ((hagree L k hL).mp ht).2 hp⟩
    · rintro ⟨L, rfl, hL, hne⟩
      by_contra hout
      push Not at hout
      refine hne ((hagree L k hL).mpr ⟨?_, hout.2⟩)
      by_contra hnot
      push Not at hnot
      rcases hmem.mpr ⟨L, rfl, hL, hnot.1⟩ with hr | ho
      · exact hnot.2 hr
      · exact hout.1 ho
  sided K k hK := by
    by_cases hc : (K + 1, k) ∈ created
    · exact Or.inr (hcreated _ _ hc).2.choose_spec.2.2
    · by_cases hr : (K + 1, k) ∈ resolved
      · exact Or.inl ((hagree K k hK).mpr ⟨Or.inr hr, hc⟩)
      · rcases h.sided K k hK with ha | hb
        · exact Or.inl ((hagree K k hK).mpr ⟨Or.inl ha, hc⟩)
        · exact Or.inr ((hbit K k hr).trans hb)

/-- An owed flag disagrees with its word, on the side of the phase. -/
theorem of_owed {L j : ℕ} (h : Settling up n s owed) (ho : (L + 1, j) ∈ owed) :
    L + 1 < numLayers n ∧ ¬s.Agrees L j ∧ s.bit (L + 1) j = !up := by
  obtain ⟨K, hK, hL, hne⟩ := (h.mem _ _).mp ho
  obtain rfl : L = K := by omega
  exact ⟨hL, hne, (h.sided L j hL).resolve_left hne⟩

/-- Setting flag `j` of layer `L` settles that flag and may unsettle its parent. -/
theorem agrees_setBit {L j : ℕ} (hin : j / 64 < s.width L) (K k : ℕ) :
    (s.setBit L j).Agrees K k ↔
      (s.bit (K + 1) k = true ∨ K + 1 = L ∧ k = j ↔ s.load K k ≠ 0 ∨ K = L ∧ k = j / 64) := by
  rw [Agrees, bit_setBit hin, load_setBit_ne_zero hin, Bool.or_eq_true, decide_eq_true_eq]

/-- Setting a leaf flag hands the parent flag over if the word was zero. -/
theorem setLeaf (h : Settling true n s owed) {i : ℕ} (hi : i < n) :
    Settling true n (s.setBit 0 i) (owed + handOver n 0 i (s.load 0 (i / 64) = 0)) := by
  have hin : i / 64 < s.width 0 := h.inBounds (numLayers_pos n) hi
  have hup : s.load 0 (i / 64) = 0 → 0 + 1 < numLayers n → s.bit 1 (i / 64) = false := by
    intro hz hL
    rcases h.sided 0 (i / 64) hL with ha | hb
    · exact Bool.eq_false_iff.mpr fun ht => ha.mp ht hz
    · exact hb
  refine move 0 (by rwa [zero_add]) (shape_setBit hin h.toShape fun _ => hi)
    (nodup_handOver _ _ _ _) ?_ ?_ ?_
  · intro K k hk
    obtain ⟨hz, hL, hk⟩ := mem_handOver.mp hk
    obtain ⟨rfl, rfl⟩ := Prod.mk.inj hk
    refine ⟨fun ho => ?_, 0, rfl, hL, ?_⟩
    · obtain ⟨_, hne, hb⟩ := h.of_owed ho
      exact hne ⟨fun ht => (Bool.false_ne_true (hb.symm.trans ht)).elim, fun hnz => (hnz hz).elim⟩
    · rw [bit_setBit hin]
      simp [hup hz hL]
  · intro K k hK
    rw [agrees_setBit hin, mem_handOver, Agrees]
    simp only [Multiset.notMem_zero, or_false, Prod.mk.injEq]
    by_cases hk : K = 0 ∧ k = i / 64
    · obtain ⟨rfl, rfl⟩ := hk
      simp only [Nat.zero_add, Nat.one_ne_zero, false_and, or_false, and_self, or_true, iff_true]
      grind
    · grind
  · intro K k _
    rw [bit_setBit hin]
    simp

/-- Setting an owed flag settles it and hands its parent over if the word was zero. -/
theorem raise {L j : ℕ} (h : Settling true n s ({(L + 1, j)} + owed)) (hj : j < layerLength n (L + 1)) :
    Settling true n (s.setBit (L + 1) j)
      (owed + handOver n (L + 1) j (s.load (L + 1) (j / 64) = 0)) := by
  have hmem : (L + 1, j) ∈ ({(L + 1, j)} + owed : Multiset (ℕ × ℕ)) := by simp
  obtain ⟨hL, hne, hb⟩ := h.of_owed hmem
  have hin : j / 64 < s.width (L + 1) := h.inBounds hL hj
  have hload : s.load L j ≠ 0 := fun hz => hne
    ⟨fun ht => (Bool.false_ne_true (hb.symm.trans ht)).elim, fun hnz => (hnz hz).elim⟩
  have hup (hz : s.load (L + 1) (j / 64) = 0) (hL' : L + 1 + 1 < numLayers n) :
      s.bit (L + 1 + 1) (j / 64) = false := by
    rcases h.sided (L + 1) (j / 64) hL' with ha | hb
    · exact Bool.eq_false_iff.mpr fun ht => ha.mp ht hz
    · exact hb
  refine move _ h (shape_setBit hin h.toShape fun _ => hj) (nodup_handOver _ _ _ _) ?_ ?_ ?_
  · intro K k hk
    obtain ⟨hz, hL', hk⟩ := mem_handOver.mp hk
    obtain ⟨rfl, rfl⟩ := Prod.mk.inj hk
    refine ⟨fun ho => ?_, L + 1, rfl, hL', ?_⟩
    · obtain ⟨_, hne', hb'⟩ := h.of_owed (Multiset.mem_add.mpr (Or.inr ho))
      exact hne' ⟨fun ht => (Bool.false_ne_true (hb'.symm.trans ht)).elim, fun hnz => (hnz hz).elim⟩
    · rw [bit_setBit hin]
      simp [hup hz hL']
  · intro K k hK
    rw [agrees_setBit hin, mem_handOver, Agrees]
    simp only [Multiset.mem_singleton, Prod.mk.injEq]
    by_cases hk : K = L + 1 ∧ k = j / 64
    · obtain ⟨rfl, rfl⟩ := hk
      grind
    · by_cases hk' : K = L ∧ k = j
      · obtain ⟨rfl, rfl⟩ := hk'
        simp only [and_self, or_true, true_iff, true_and]
        grind
      · grind
  · intro K k hk
    simp only [Multiset.mem_singleton, Prod.mk.injEq] at hk
    rw [bit_setBit hin, decide_eq_false hk, Bool.or_false]

/-- Clearing flag `j` of layer `L` settles that flag and may unsettle its parent. -/
theorem agrees_clearBit {L j : ℕ} (hin : j / 64 < s.width L) (hset : s.bit L j = true) (K k : ℕ) :
    (s.clearBit L j).Agrees K k ↔
      (s.bit (K + 1) k = true ∧ ¬(K + 1 = L ∧ k = j) ↔
        s.load K k ≠ 0 ∧ ¬(K = L ∧ k = j / 64 ∧ s.load K k = flag (j % 64))) := by
  rw [Agrees, bit_clearBit hin, Bool.and_eq_true, Bool.not_eq_true', decide_eq_false_iff_not]
  refine iff_congr Iff.rfl ?_
  by_cases hk : K = L ∧ k = j / 64
  · obtain ⟨rfl, rfl⟩ := hk
    rw [Ne, load_clearBit_eq_zero hin hset]
    have hnz : s.load K (j / 64) ≠ 0 := (load_ne_zero_iff _ _ _).mpr ⟨j, rfl, hset⟩
    simp only [true_and]
    exact ⟨fun hf => ⟨hnz, hf⟩, And.right⟩
  · rw [load_clearBit_of_ne hin _ _ hk]
    grind

/-- Clearing a leaf flag hands the parent flag over if it was the last of its word. -/
theorem clearLeaf (h : Settling false n s owed) {i : ℕ} (hset : s.bit 0 i = true) :
    Settling false n (s.clearBit 0 i)
      (owed + handOver n 0 i (s.load 0 (i / 64) = flag (i % 64))) := by
  have hin : i / 64 < s.width 0 := h.inBounds (numLayers_pos n) (h.fits 0 (numLayers_pos n) i hset)
  have hnz : s.load 0 (i / 64) ≠ 0 := (load_ne_zero_iff _ _ _).mpr ⟨i, rfl, hset⟩
  have hdown (hL : 0 + 1 < numLayers n) : s.bit 1 (i / 64) = true := by
    rcases h.sided 0 (i / 64) hL with ha | hb
    · exact ha.mpr hnz
    · exact hb
  refine move 0 (by rwa [zero_add]) (shape_clearBit hin h.toShape) (nodup_handOver _ _ _ _) ?_ ?_ ?_
  · intro K k hk
    obtain ⟨hz, hL, hk⟩ := mem_handOver.mp hk
    obtain ⟨rfl, rfl⟩ := Prod.mk.inj hk
    refine ⟨fun ho => ?_, 0, rfl, hL, ?_⟩
    · exact (h.of_owed ho).2.1 ⟨fun _ => hnz, fun _ => hdown hL⟩
    · rw [bit_clearBit hin]
      simp [hdown hL]
  · intro K k hK
    rw [agrees_clearBit hin hset, mem_handOver, Agrees]
    simp only [Multiset.notMem_zero, or_false, Prod.mk.injEq]
    by_cases hk : K = 0 ∧ k = i / 64
    · obtain ⟨rfl, rfl⟩ := hk
      grind
    · grind
  · intro K k _
    rw [bit_clearBit hin]
    simp

/-- Clearing an owed flag settles it and hands its parent over if it was the last of its word. -/
theorem lower {L j : ℕ} (h : Settling false n s ({(L + 1, j)} + owed)) :
    Settling false n (s.clearBit (L + 1) j)
      (owed + handOver n (L + 1) j (s.load (L + 1) (j / 64) = flag (j % 64))) := by
  have hmem : (L + 1, j) ∈ ({(L + 1, j)} + owed : Multiset (ℕ × ℕ)) := by simp
  obtain ⟨hL, hne, hset⟩ := h.of_owed hmem
  rw [Bool.not_false] at hset
  have hin : j / 64 < s.width (L + 1) := h.inBounds hL (h.fits _ hL j hset)
  have hload : s.load L j = 0 := by
    by_contra hnz
    exact hne ⟨fun _ => hnz, fun _ => hset⟩
  have hnz : s.load (L + 1) (j / 64) ≠ 0 := (load_ne_zero_iff _ _ _).mpr ⟨j, rfl, hset⟩
  have hdown (hL' : L + 1 + 1 < numLayers n) : s.bit (L + 1 + 1) (j / 64) = true := by
    rcases h.sided (L + 1) (j / 64) hL' with ha | hb
    · exact ha.mpr hnz
    · exact hb
  refine move _ h (shape_clearBit hin h.toShape) (nodup_handOver _ _ _ _) ?_ ?_ ?_
  · intro K k hk
    obtain ⟨hz, hL', hk⟩ := mem_handOver.mp hk
    obtain ⟨rfl, rfl⟩ := Prod.mk.inj hk
    refine ⟨fun ho => ?_, L + 1, rfl, hL', ?_⟩
    · exact (h.of_owed (Multiset.mem_add.mpr (Or.inr ho))).2.1 ⟨fun _ => hnz, fun _ => hdown hL'⟩
    · rw [bit_clearBit hin]
      simp [hdown hL']
  · intro K k hK
    rw [agrees_clearBit hin hset, mem_handOver, Agrees]
    simp only [Multiset.mem_singleton, Prod.mk.injEq]
    by_cases hk : K = L + 1 ∧ k = j / 64
    · obtain ⟨rfl, rfl⟩ := hk
      grind
    · by_cases hk' : K = L ∧ k = j
      · obtain ⟨rfl, rfl⟩ := hk'
        grind
      · grind
  · intro K k hk
    simp only [Multiset.mem_singleton, Prod.mk.injEq] at hk
    rw [bit_clearBit hin, decide_eq_false hk, Bool.not_false, Bool.and_true]

end Settling

end IndexSet

end ToggleTree
