import Mathlib.Data.Finset.Union
import Mathlib.Data.Multiset.Bind
import Mathlib.Tactic

/-!
# Owned cells

A resource for state that is divided among the branches of a fork: a token names a cell and what
is stored in it. Different tokens name different cells, so that the branch that holds the token of
a cell is the only one to write it and knows what it will read there.
-/

namespace ForkJoin

variable {κ V : Type}

/-- The tokens of the cells in `s`, with the contents `c`. -/
def cells (c : κ → V) (s : Finset κ) : Multiset (κ × V) := s.val.map fun k => (k, c k)

/-- The cells of a set. -/
theorem mem_cells {c : κ → V} {s : Finset κ} {p : κ × V} : p ∈ cells c s ↔ p.1 ∈ s ∧ p.2 = c p.1 := by
  rw [cells, Multiset.mem_map]
  constructor
  · rintro ⟨k, hk, rfl⟩
    exact ⟨hk, rfl⟩
  · rintro ⟨hk, hp⟩
    exact ⟨p.1, hk, by rw [← hp]⟩

/-- The keys of the cells of a set. -/
theorem keys_cells (c : κ → V) (s : Finset κ) : (cells c s).map Prod.fst = s.val := by
  rw [cells, Multiset.map_map]
  exact Multiset.map_id' _

/-- The cells depend only on the contents of the set. -/
theorem cells_congr {c c' : κ → V} {s : Finset κ} (h : ∀ k ∈ s, c k = c' k) : cells c s = cells c' s :=
  Multiset.map_congr rfl fun k hk => by rw [h k hk]

/-- The cells of two disjoint sets. -/
theorem cells_union [DecidableEq κ] (c : κ → V) {s t : Finset κ} (h : Disjoint s t) :
    cells c (s ∪ t) = cells c s + cells c t := by
  rw [← Finset.disjUnion_eq_union s t h, cells, Finset.disjUnion_val, Multiset.map_add]
  rfl

/-- The cells of many disjoint sets. -/
theorem cells_biUnion [DecidableEq κ] {ι : Type} [DecidableEq ι] (c : κ → V) {I : Finset ι}
    {f : ι → Finset κ} (h : ∀ i ∈ I, ∀ j ∈ I, i ≠ j → Disjoint (f i) (f j)) :
    cells c (I.biUnion f) = ∑ i ∈ I, cells c (f i) := by
  induction I using Finset.induction_on with
  | empty => rfl
  | insert i I hi ih =>
    have hrest : ∀ j ∈ I, ∀ k ∈ I, j ≠ k → Disjoint (f j) (f k) := fun j hj k hk =>
      h j (Finset.mem_insert_of_mem hj) k (Finset.mem_insert_of_mem hk)
    have hfirst : Disjoint (f i) (I.biUnion f) := by
      rw [Finset.disjoint_biUnion_right]
      exact fun j hj => h i (Finset.mem_insert_self i I) j (Finset.mem_insert_of_mem hj) fun hij => hi (hij ▸ hj)
    rw [Finset.biUnion_insert, cells_union c hfirst, ih hrest, Finset.sum_insert hi]

/-- The tokens name different cells, with what is stored in them. -/
structure Holds (content : κ → V) (tokens : Multiset (κ × V)) : Prop where
  nodup : (tokens.map Prod.fst).Nodup
  eq : ∀ p ∈ tokens, content p.1 = p.2

namespace Holds

variable {content content' c c' : κ → V} {s : Finset κ} {o : Multiset (κ × V)}

/-- The content has the cells of every set. -/
theorem of_cells (content : κ → V) (s : Finset κ) : Holds content (cells content s) where
  nodup := by rw [keys_cells]; exact s.nodup
  eq _ hp := (mem_cells.mp hp).2.symm

/-- The holder of a token knows what is stored in its cell. -/
theorem get (h : Holds content (cells c s + o)) {k : κ} (hk : k ∈ s) : content k = c k :=
  h.eq (k, c k) (Multiset.mem_add.mpr (Or.inl (mem_cells.mpr ⟨hk, rfl⟩)))

/-- The tokens of other branches name other cells. -/
theorem ne (h : Holds content (cells c s + o)) {k : κ} (hk : k ∈ s) {p : κ × V} (hp : p ∈ o) : p.1 ≠ k := by
  rintro rfl
  have hnodup := h.nodup
  rw [Multiset.map_add, keys_cells] at hnodup
  exact Multiset.disjoint_left.mp (Multiset.nodup_add.mp hnodup).2.2 hk (Multiset.mem_map_of_mem _ hp)

/-- The holder of a token may write its cell. -/
theorem write (h : Holds content (cells c s + o)) {k : κ} (hk : k ∈ s)
    (hcontent : ∀ j, j ≠ k → content' j = content j) (hc : ∀ j, j ≠ k → c' j = c j) (hsame : content' k = c' k) :
    Holds content' (cells c' s + o) where
  nodup := by
    have hnodup := h.nodup
    rw [Multiset.map_add, keys_cells] at hnodup ⊢
    exact hnodup
  eq p hp := by
    rcases Multiset.mem_add.mp hp with hp | hp
    · obtain ⟨hps, hpc⟩ := mem_cells.mp hp
      rw [hpc]
      by_cases hpk : p.1 = k
      · rw [hpk, hsame]
      · rw [hcontent p.1 hpk, hc p.1 hpk]
        exact h.get hps
    · rw [hcontent p.1 (h.ne hk hp)]
      exact h.eq p (Multiset.mem_add.mpr (Or.inr hp))

end Holds

section Gather

variable [DecidableEq κ] {ι : Type} [DecidableEq ι] {I : Finset ι} {f : ι → Finset κ} {s : Finset κ}

/-- The cells of some disjoint parts, and the rest. -/
theorem cells_split (c : κ → V) (hsub : ∀ i ∈ I, f i ⊆ s)
    (hdisjoint : ∀ i ∈ I, ∀ j ∈ I, i ≠ j → Disjoint (f i) (f j)) :
    cells c s = ∑ i ∈ I, cells c (f i) + cells c (s \ I.biUnion f) := by
  have hpart : I.biUnion f ⊆ s := Finset.biUnion_subset.mpr hsub
  rw [← cells_biUnion c hdisjoint, ← cells_union c Finset.disjoint_sdiff, Finset.union_sdiff_of_subset hpart]

/-- Parts that have been worked on separately are put together again: their contents are those of
the state. -/
theorem Holds.gather {content : κ → V} {c : ι → κ → V} {c' : κ → V} {o : Multiset (κ × V)}
    (hsub : ∀ i ∈ I, f i ⊆ s) (hdisjoint : ∀ i ∈ I, ∀ j ∈ I, i ≠ j → Disjoint (f i) (f j))
    (h : Holds content (∑ i ∈ I, cells (c i) (f i) + cells c' (s \ I.biUnion f) + o)) :
    ∑ i ∈ I, cells (c i) (f i) + cells c' (s \ I.biUnion f) = cells content s ∧
      (∀ i ∈ I, ∀ k ∈ f i, content k = c i k) ∧ ∀ k ∈ s, (∀ i ∈ I, k ∉ f i) → content k = c' k := by
  have hpart : ∀ i ∈ I, ∀ k ∈ f i, content k = c i k := fun i hi k hk =>
    h.eq (k, c i k) (Multiset.mem_add.mpr (Or.inl (Multiset.mem_add.mpr (Or.inl
      (Multiset.mem_sum.mpr ⟨i, hi, mem_cells.mpr ⟨hk, rfl⟩⟩)))))
  have hrest : ∀ k ∈ s, (∀ i ∈ I, k ∉ f i) → content k = c' k := fun k hk hnot =>
    h.eq (k, c' k) (Multiset.mem_add.mpr (Or.inl (Multiset.mem_add.mpr (Or.inr
      (mem_cells.mpr ⟨by simpa [hk] using hnot, rfl⟩)))))
  refine ⟨?_, hpart, hrest⟩
  rw [cells_split content hsub hdisjoint]
  refine congrArg₂ (· + ·) (Finset.sum_congr rfl fun i hi => cells_congr fun k hk => (hpart i hi k hk).symm)
    (cells_congr fun k hk => ?_)
  obtain ⟨hks, hnot⟩ := Finset.mem_sdiff.mp hk
  exact (hrest k hks (by simpa using hnot)).symm

end Gather

end ForkJoin
