import Mathlib.Data.Finset.Lattice.Fold
import ToggleTree.IndexMap.Basic
import ToggleTree.IndexSet.ForEach

/-!
# Exact index maps

A node is exact for a set of indices if its flags are those of the children with elements below
them and its augmented value is the least value of the sequence over the elements below it. The
operations on a node change only what lies below it, so that the loops over its children can be
followed one child at a time, in any order.
-/

namespace ToggleTree

open Checked

namespace IndexSet

/-- A node is below itself. -/
theorem under_self (L w : ℕ) : Under L w L w := ⟨le_rfl, by simp⟩

/-- What lies below a node is the node itself or lies below a child. -/
theorem Under.cases {L w K v : ℕ} (h : Under (L + 1) w K v) :
    (K = L + 1 ∧ v = w) ∨ ∃ o < 64, Under L (64 * w + o) K v := by
  rcases Nat.eq_or_lt_of_le h.1 with rfl | hlt
  · left
    exact ⟨rfl, by simpa using h.2⟩
  · right
    refine ⟨v / 64 ^ (L - K) % 64, Nat.mod_lt _ (by norm_num), by omega, ?_⟩
    have hdiv := h.2
    rw [show L + 1 - K = L - K + 1 by omega, div_pow_succ] at hdiv
    rw [← hdiv, Nat.div_add_mod]

/-- Different nodes of a layer have nothing below them in common. -/
theorem Under.unique {L w w' K v : ℕ} (h : Under L w K v) (h' : Under L w' K v) : w = w' := h.2.symm.trans h'.2

/-- An index below a node below another one. -/
theorem Under.div {L w K v i : ℕ} (h : Under L w K v) (hi : i / 64 ^ (K + 1) = v) : i / 64 ^ (L + 1) = w := by
  rw [show L + 1 = K + 1 + (L - K) by have := h.1; omega, pow_add, ← Nat.div_div_eq_div_mul, hi]
  exact h.2

end IndexSet

namespace IndexMap

open IndexSet

variable {T : Type}

/-- The flag, the dirty flag and the augmented value of a node. -/
def node (m : IndexMap T) (layer word : ℕ) : Word × Word × T :=
  (m.flag.load layer word, m.dirty.load layer word, m.augval layer word)

/-- The words of an index map for `n` indices have been allocated. -/
structure Allocated (n : ℕ) (m : IndexMap T) : Prop where
  flagSize : m.flag.toggle.size = numLayers n
  dirtySize : m.dirty.toggle.size = numLayers n
  flagWidth : ∀ L < numLayers n, m.flag.width L = layerLength n (L + 1)
  dirtyWidth : ∀ L < numLayers n, m.dirty.width L = layerLength n (L + 1)

/-- A node above a valid index has been allocated. -/
def InBounds (n layer word : ℕ) : Prop := layer < numLayers n ∧ ∃ i < n, i / 64 ^ (layer + 1) = word

section Writes

variable {n L w : ℕ} {m : IndexMap T} {x : Word} {a : T}

/-- A node of the tree stands in its layer. -/
theorem InBounds.lt (h : InBounds n L w) : w < layerLength n (L + 1) := by
  obtain ⟨_, i, hi, rfl⟩ := h
  exact div_lt_layerLength hi (L + 1)

/-- Writing flags keeps the augmented values. -/
@[simp] theorem augval_setFlag : (m.setFlag L w x).augval = m.augval := rfl

/-- Writing dirty flags keeps the augmented values. -/
@[simp] theorem augval_setDirty : (m.setDirty L w x).augval = m.augval := rfl

/-- Writing flags keeps the dirty flags. -/
@[simp] theorem dirty_setFlag : (m.setFlag L w x).dirty = m.dirty := rfl

/-- Writing an augmented value keeps the dirty flags. -/
@[simp] theorem dirty_setAugval : (m.setAugval L w a).dirty = m.dirty := rfl

/-- Writing dirty flags keeps the flags. -/
@[simp] theorem flag_setDirty : (m.setDirty L w x).flag = m.flag := rfl

/-- Writing an augmented value keeps the flags. -/
@[simp] theorem flag_setAugval : (m.setAugval L w a).flag = m.flag := rfl

/-- Writing flags keeps the sizes. -/
theorem Allocated.setFlag (h : Allocated n m) : Allocated n (m.setFlag L w x) where
  flagSize := (size_store _ _ _ _).trans h.flagSize
  dirtySize := h.dirtySize
  flagWidth K hK := (width_store _ _ _ _ K).trans (h.flagWidth K hK)
  dirtyWidth := h.dirtyWidth

/-- Writing dirty flags keeps the sizes. -/
theorem Allocated.setDirty (h : Allocated n m) : Allocated n (m.setDirty L w x) where
  flagSize := h.flagSize
  dirtySize := (size_store _ _ _ _).trans h.dirtySize
  flagWidth := h.flagWidth
  dirtyWidth K hK := (width_store _ _ _ _ K).trans (h.dirtyWidth K hK)

/-- Writing an augmented value keeps the sizes. -/
theorem Allocated.setAugval (h : Allocated n m) : Allocated n (m.setAugval L w a) :=
  ⟨h.flagSize, h.dirtySize, h.flagWidth, h.dirtyWidth⟩

/-- The nodes after flags are written. -/
theorem node_setFlag (h : Allocated n m) (hin : InBounds n L w) (K v : ℕ) :
    (m.setFlag L w x).node K v = if K = L ∧ v = w then (x, (m.node K v).2) else m.node K v := by
  have hload : (m.flag.store L w x).load K v = if K = L ∧ v = w then x else m.flag.load K v :=
    load_store _ _ _ _ (by rw [h.flagWidth L hin.1]; exact hin.lt) K v
  change ((m.flag.store L w x).load K v, m.dirty.load K v, m.augval K v) = _
  rw [hload]
  split <;> rfl

/-- The nodes after dirty flags are written. -/
theorem node_setDirty (h : Allocated n m) (hin : InBounds n L w) (K v : ℕ) :
    (m.setDirty L w x).node K v =
      if K = L ∧ v = w then ((m.node K v).1, x, (m.node K v).2.2) else m.node K v := by
  have hload : (m.dirty.store L w x).load K v = if K = L ∧ v = w then x else m.dirty.load K v :=
    load_store _ _ _ _ (by rw [h.dirtyWidth L hin.1]; exact hin.lt) K v
  change (m.flag.load K v, (m.dirty.store L w x).load K v, m.augval K v) = _
  rw [hload]
  split <;> rfl

/-- The nodes after an augmented value is written. -/
theorem node_setAugval (m : IndexMap T) (a : T) (K v : ℕ) :
    (m.setAugval L w a).node K v =
      if K = L ∧ v = w then ((m.node K v).1, (m.node K v).2.1, a) else m.node K v := by
  change (m.flag.load K v, m.dirty.load K v, if K = L ∧ v = w then a else m.augval K v) = _
  split <;> rfl

end Writes

section Below

/-- The second map differs from the first at or below a node only. -/
structure ChangedBelow (n L w : ℕ) (m m' : IndexMap T) : Prop where
  allocated : Allocated n m'
  same : ∀ K v, ¬Under L w K v → m'.node K v = m.node K v

/-- Iterations of a parallel loop that work below different children. -/
theorem parallelFold_below {σ : Type} (map : σ → IndexMap T) {n L k : ℕ} (child : ℕ → ℕ) (schedule : Schedule)
    (s : σ) (body : ℕ → σ → σ) (I : Finset ℕ → σ → Prop)
    (hchild : ∀ i < k, ∀ j < k, child i = child j → i = j) (halloc : Allocated n (map s)) (h0 : I ∅ s)
    (hbody : ∀ done i t, i < k → i ∉ done → (∀ j ∈ done, j < k) → Allocated n (map t) →
      (∀ K v, Under L (child i) K v → (map t).node K v = (map s).node K v) → I done t →
      I (Insert.insert i done) (body i t) ∧ ChangedBelow n L (child i) (map t) (map (body i t))) :
    I (Finset.range k) (parallelFold schedule k s body) ∧
      Allocated n (map (parallelFold schedule k s body)) ∧
      ∀ K v, (∀ i < k, ¬Under L (child i) K v) →
        (map (parallelFold schedule k s body)).node K v = (map s).node K v := by
  have key : (∀ j ∈ Finset.range k, j < k) ∧ I (Finset.range k) (parallelFold schedule k s body) ∧
      Allocated n (map (parallelFold schedule k s body)) ∧
      ∀ K v, (∀ i ∈ Finset.range k, ¬Under L (child i) K v) →
        (map (parallelFold schedule k s body)).node K v = (map s).node K v := by
    refine parallelFold_invariant (I := fun done t => (∀ j ∈ done, j < k) ∧ I done t ∧ Allocated n (map t) ∧
      ∀ K v, (∀ i ∈ done, ¬Under L (child i) K v) → (map t).node K v = (map s).node K v) ?_ ?_
    · exact ⟨fun j hj => absurd hj (Finset.notMem_empty j), h0, halloc, fun _ _ _ => rfl⟩
    · rintro done i t hi hnot ⟨hdone, hI, ht, hsame⟩
      have hfresh (K v : ℕ) (hu : Under L (child i) K v) : (map t).node K v = (map s).node K v := by
        refine hsame K v fun j hj hu' => hnot ?_
        rwa [hchild i hi j (hdone j hj) (hu.unique hu')]
      obtain ⟨hI', hbelow⟩ := hbody done i t hi hnot hdone ht hfresh hI
      refine ⟨fun j hj => ?_, hI', hbelow.allocated, fun K v hu => ?_⟩
      · rcases Finset.mem_insert.mp hj with rfl | hj
        · exact hi
        · exact hdone j hj
      · rw [hbelow.same K v (hu i (Finset.mem_insert_self i done))]
        exact hsame K v fun j hj => hu j (Finset.mem_insert_of_mem hj)
  exact ⟨key.2.1, key.2.2.1, fun K v h => key.2.2.2 K v fun i hi => h i (Finset.mem_range.mp hi)⟩

end Below

section Flags

/-- A word whose flags tell which of the children of node `v` have elements below them. -/
def FlagWord (x : Word) (S : Finset ℕ) (K v : ℕ) : Prop :=
  ∀ o, o ∈ bits x ↔ o < 64 ∧ ∃ i ∈ S, i / 64 ^ K = 64 * v + o

variable {x y : Word} {S S' : Finset ℕ} {K v : ℕ}

/-- A word of flags is not zero if some index is below its node. -/
theorem FlagWord.ne_zero (h : FlagWord x S K v) : x ≠ 0 ↔ ∃ i ∈ S, i / 64 ^ (K + 1) = v := by
  rw [Ne, ← bits_eq_nil_iff, List.eq_nil_iff_forall_not_mem]
  push Not
  constructor
  · rintro ⟨o, ho⟩
    obtain ⟨hlt, i, hi, hio⟩ := (h o).mp ho
    exact ⟨i, hi, by rw [div_pow_succ, hio]; omega⟩
  · rintro ⟨i, hi, rfl⟩
    refine ⟨i / 64 ^ K % 64, (h _).mpr ⟨Nat.mod_lt _ (by norm_num), i, hi, ?_⟩⟩
    rw [div_pow_succ, Nat.div_add_mod]

/-- A word of flags depends only on the indices below its node. -/
theorem FlagWord.congr (h : FlagWord x S K v) (hS : ∀ i, i / 64 ^ (K + 1) = v → (i ∈ S' ↔ i ∈ S)) :
    FlagWord x S' K v := by
  intro o
  rw [h o]
  refine and_congr_right fun ho => exists_congr fun i => ?_
  refine and_congr_left fun hi => ?_
  rw [hS i (by rw [div_pow_succ, hi]; omega)]

/-- The flags of two sets. -/
theorem FlagWord.or (h : FlagWord x S K v) (h' : FlagWord y S' K v) : FlagWord (x ||| y) (S ∪ S') K v := by
  intro o
  have hor : o ∈ bits (x ||| y) ↔ o ∈ bits x ∨ o ∈ bits y := by simp
  rw [hor, h o, h' o, ← and_or_left]
  refine and_congr_right fun _ => ?_
  simp only [Finset.mem_union, or_and_right, exists_or]

/-- The words of a tree that represents a set are its flags. -/
theorem flagWord_of_represents {n : ℕ} {s : IndexSet} (h : Represents n s S) (hK : K < numLayers n) (v : ℕ) :
    FlagWord (s.load K v) S K v := h.mem_bits_load hK v

end Flags

variable [LinearOrder T] [OrderTop T]

section Least

variable {sequence : ℕ → T} {S S' : Finset ℕ} {K v : ℕ}

/-- The least value of the sequence over the elements of `S` below node `(K, v)`. -/
def minBelow (sequence : ℕ → T) (S : Finset ℕ) (K v : ℕ) : T := (S.filter fun i => i / 64 ^ K = v).inf sequence

/-- What is at most the least value below a node. -/
theorem le_minBelow {t : T} : t ≤ minBelow sequence S K v ↔ ∀ i ∈ S, i / 64 ^ K = v → t ≤ sequence i := by
  rw [minBelow, Finset.le_inf_iff]
  simp only [Finset.mem_filter, and_imp]

omit [OrderTop T] in
/-- What is at most the least of a list. -/
theorem le_leastOf {init t : T} {l : List ℕ} {value : ℕ → T} :
    t ≤ leastOf init l value ↔ t ≤ init ∧ ∀ i ∈ l, t ≤ value i := by
  unfold leastOf
  induction l generalizing init with
  | nil => simp
  | cons i l ih => simp [ih, and_assoc]

/-- The least value below a node depends only on the indices below it and on their values. -/
theorem minBelow_congr {sequence' : ℕ → T} (h : ∀ i, i / 64 ^ K = v → (i ∈ S' ↔ i ∈ S))
    (hvalue : ∀ i ∈ S, i / 64 ^ K = v → sequence' i = sequence i) :
    minBelow sequence' S' K v = minBelow sequence S K v := by
  refine eq_of_forall_le_iff fun t => ?_
  rw [le_minBelow, le_minBelow]
  constructor
  · intro ht i hi hiv
    rw [← hvalue i hi hiv]
    exact ht i ((h i hiv).mpr hi) hiv
  · intro ht i hi hiv
    rw [hvalue i ((h i hiv).mp hi) hiv]
    exact ht i ((h i hiv).mp hi) hiv

/-- The elements below a word are those below its children. -/
theorem le_minBelow_succ {x : Word} {t : T} (hx : FlagWord x S K v) :
    t ≤ minBelow sequence S (K + 1) v ↔ ∀ o ∈ bits x, t ≤ minBelow sequence S K (64 * v + o) := by
  rw [le_minBelow]
  constructor
  · intro ht o ho
    rw [le_minBelow]
    intro i hi hio
    have := bits_lt ho
    exact ht i hi (by rw [div_pow_succ, hio]; omega)
  · rintro ht i hi rfl
    have hio : i / 64 ^ K = 64 * (i / 64 ^ (K + 1)) + i / 64 ^ K % 64 := by rw [div_pow_succ, Nat.div_add_mod]
    have ho : i / 64 ^ K % 64 ∈ bits x := (hx _).mpr ⟨Nat.mod_lt _ (by norm_num), i, hi, hio⟩
    exact le_minBelow.mp (ht _ ho) i hi hio

end Least

/-- A node whose flags and augmented value are those of a set of indices. -/
structure ExactNode (sequence : ℕ → T) (S : Finset ℕ) (m : IndexMap T) (K v : ℕ) : Prop where
  flag : FlagWord (m.flag.load K v) S K v
  augval : m.augval K v = minBelow sequence S (K + 1) v

section Exact

variable {sequence sequence' : ℕ → T} {S S' : Finset ℕ} {m m' : IndexMap T} {K v n : ℕ}

/-- Exactness of a node depends only on the indices below it and on their values. -/
theorem ExactNode.congr (h : ExactNode sequence S m K v) (hS : ∀ i, i / 64 ^ (K + 1) = v → (i ∈ S' ↔ i ∈ S))
    (hvalue : ∀ i ∈ S, i / 64 ^ (K + 1) = v → sequence' i = sequence i) : ExactNode sequence' S' m K v :=
  ⟨h.flag.congr hS, h.augval.trans (minBelow_congr hS hvalue).symm⟩

/-- A node that is the same stays exact. -/
theorem ExactNode.of_node (h : ExactNode sequence S m K v) (hnode : m'.node K v = m.node K v) :
    ExactNode sequence S m' K v := by
  obtain ⟨hflag, _, haug⟩ : m'.flag.load K v = m.flag.load K v ∧ m'.dirty.load K v = m.dirty.load K v ∧
      m'.augval K v = m.augval K v := by simpa [node] using hnode
  exact ⟨by rw [hflag]; exact h.flag, haug.trans h.augval⟩

/-- An index map at rest: all nodes are exact for `S` and no dirty flag is set. -/
structure Exact (n : ℕ) (sequence : ℕ → T) (S : Finset ℕ) (m : IndexMap T) : Prop where
  flag : Represents n m.flag S
  dirty : Represents n m.dirty ∅
  augval : ∀ K < numLayers n, ∀ v, m.augval K v = minBelow sequence S (K + 1) v

namespace Exact

/-- An exact map has its sizes. -/
theorem allocated (h : Exact n sequence S m) : Allocated n m :=
  ⟨h.flag.size, h.dirty.size, h.flag.width, h.dirty.width⟩

/-- Every node of an exact map is exact. -/
theorem node (h : Exact n sequence S m) (hK : K < numLayers n) (v : ℕ) : ExactNode sequence S m K v :=
  ⟨flagWord_of_represents h.flag hK v, h.augval K hK v⟩

end Exact

/-- Words of flags at all nodes represent the set. -/
theorem represents_of_flagWord {s : IndexSet} (hsize : s.toggle.size = numLayers n)
    (hwidth : ∀ L < numLayers n, s.width L = layerLength n (L + 1)) (hS : ∀ i ∈ S, i < n)
    (h : ∀ K < numLayers n, ∀ v, FlagWord (s.load K v) S K v) : Represents n s S := by
  have hbit : ∀ K < numLayers n, ∀ j, s.bit K j = true ↔ ∃ i ∈ S, i / 64 ^ K = j := by
    intro K hK j
    have hj := h K hK (j / 64) (j % 64)
    rw [mem_bits, Nat.div_add_mod] at hj
    rw [bit, hj]
    exact and_iff_right (Nat.mod_lt _ (by norm_num))
  refine ⟨⟨hsize, hwidth, fun K hK j hj => ?_⟩, fun i => ?_, fun K hK j => ?_⟩
  · obtain ⟨i, hi, rfl⟩ := (hbit K hK j).mp hj
    exact div_lt_layerLength (hS i hi) K
  · rw [hbit 0 (numLayers_pos n)]
    simp
  · rw [hbit (K + 1) hK, (h K (by omega) j).ne_zero]

/-- A map is exact if all its nodes are. -/
theorem exact_of_nodes (halloc : Allocated n m) (hS : ∀ i ∈ S, i < n)
    (hnode : ∀ K < numLayers n, ∀ v, ExactNode sequence S m K v)
    (hdirty : ∀ K < numLayers n, ∀ v, m.dirty.load K v = 0) : Exact n sequence S m where
  flag := represents_of_flagWord halloc.flagSize halloc.flagWidth hS fun K hK v => (hnode K hK v).flag
  dirty := by
    refine represents_of_flagWord halloc.dirtySize halloc.dirtyWidth
      (fun i hi => absurd hi (Finset.notMem_empty i)) ?_
    intro K hK v o
    rw [hdirty K hK v, bits_eq_nil_iff.mpr rfl]
    simp
  augval K hK v := (hnode K hK v).augval

/-- The nodes of the tree all lie below the root. -/
theorem under_root {K v i : ℕ} (hK : K < numLayers n) (hi : i < n) (hiv : i / 64 ^ (K + 1) = v) :
    Under (numLayers n - 1) 0 K v := by
  refine ⟨by omega, ?_⟩
  rw [← hiv, Nat.div_div_eq_div_mul, ← pow_add, show K + 1 + (numLayers n - 1 - K) = numLayers n by omega]
  exact div_numLayers hi

end Exact

end IndexMap

end ToggleTree
