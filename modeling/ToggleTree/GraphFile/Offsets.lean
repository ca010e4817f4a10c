import ToggleTree.GraphFile.Fingerprint

/-!
# Offsets of sorted keys

The first position of every key is stored as its offset, and keys that do not occur take the offset
of the next key. Either way the offset of a key is the number of positions with a smaller key.
-/

namespace ToggleTree

open Checked Primitives StableRank

namespace GraphFile

variable {key : ℕ → ℕ} {n m u v i k : ℕ} {offsets : Array ℕ}

/-- The positions with smaller keys come first. -/
theorem lt_first_iff (hmono : ∀ i j, i ≤ j → j < m → key i ≤ key j) (hk : k < m) :
    k < first key m u ↔ key k < u := by
  have hsplit : split key 0 m u = first key m u := by
    rw [split, Nat.zero_add, first, first, Nat.count_zero, Nat.sub_zero]
  rw [← hsplit]
  exact lt_split_iff (fun i j _ hij hj => hmono i j hij hj) (Nat.zero_le k) hk

/-- The positions between two offsets are those of the key. -/
theorem mem_first_iff (hmono : ∀ i j, i ≤ j → j < m → key i ≤ key j) :
    first key m u ≤ k ∧ k < first key m (u + 1) ↔ k < m ∧ key k = u := by
  constructor
  · rintro ⟨hle, hlt⟩
    have hk : k < m := hlt.trans_le (first_le _)
    have h₁ := (lt_first_iff hmono hk).mp hlt
    have h₂ := mt (lt_first_iff hmono hk).mpr (Nat.not_lt.mpr hle)
    exact ⟨hk, by omega⟩
  · rintro ⟨hk, rfl⟩
    exact ⟨Nat.not_lt.mp (mt (lt_first_iff hmono hk).mp (lt_irrefl _)),
      (lt_first_iff hmono hk).mpr (Nat.lt_succ_self _)⟩

/-- A position whose key differs from the key before is the offset of its key. -/
theorem first_eq_self (hmono : ∀ i j, i ≤ j → j < m → key i ≤ key j) (hi : i < m)
    (hnew : i = 0 ∨ key i ≠ key (i - 1)) :
    first key m (key i) = i := by
  refine le_antisymm (Nat.not_lt.mp (mt (lt_first_iff hmono hi).mp (lt_irrefl _))) ?_
  rcases hnew with rfl | hne
  · exact Nat.zero_le _
  by_contra hlt
  have hprevious := hmono (i - 1) i (by omega) hi
  have := (lt_first_iff hmono (k := i - 1) (u := key i) (by omega)).mpr (by omega)
  omega

/-- A key that occurs has an offset before the end. -/
theorem first_lt (hmono : ∀ i j, i ≤ j → j < m → key i ≤ key j) (hi : i < m) : first key m (key i) < m :=
  ((mem_first_iff hmono).mpr ⟨hi, rfl⟩).1.trans_lt hi

/-- A key that occurs has a first position. -/
theorem exists_new (hi : i < m) : ∃ j < m, key j = key i ∧ (j = 0 ∨ key j ≠ key (j - 1)) := by
  induction i using Nat.strong_induction_on with
  | _ i ih =>
    by_cases hnew : i = 0 ∨ key i ≠ key (i - 1)
    · exact ⟨i, hi, rfl, hnew⟩
    · rw [not_or, not_not] at hnew
      obtain ⟨j, hj, hkey, hnew'⟩ := ih (i - 1) (by omega) (by omega)
      exact ⟨j, hj, hkey.trans hnew.2.symm, hnew'⟩

/-- Offsets are right or still unset, and those of the positions that are done are right. -/
structure Marked (key : ℕ → ℕ) (n m : ℕ) (done : Finset ℕ) (offsets : Array ℕ) (o : ℕ → ℕ) : Prop where
  contents : Contents offsets (n + 1) o
  right : ∀ u ≤ n, (o u = first key m u ∧ ∃ i < m, key i = u) ∨ o u = m
  marked : ∀ i ∈ done, (i = 0 ∨ key i ≠ key (i - 1)) → o (key i) = first key m (key i)

/-- Before any record every offset is the number of edges. -/
theorem Marked.start (key : ℕ → ℕ) (n m : ℕ) : Marked key n m ∅ (Array.replicate (n + 1) m) fun _ => m :=
  ⟨Contents.replicate _ _, fun _ _ => Or.inr rfl, fun i hi => absurd hi (Finset.notMem_empty i)⟩

/-- Marking one position. -/
theorem Marked.markFirst {done : Finset ℕ} {o : ℕ → ℕ} {keys : ℕ → Option ℕ} (h : Marked key n m done offsets o)
    (hmono : ∀ i j, i ≤ j → j < m → key i ≤ key j) (hkeys : ∀ i < m, keys i = some (key i)) (hi : i < m)
    (hkey : key i ≤ n) :
    Returns (fun offsets' => ∃ o', Marked key n m (insert i done) offsets' o') (markFirst keys i offsets) := by
  have hwrite (hnew : i = 0 ∨ key i ≠ key (i - 1)) :
      Returns (fun offsets' => ∃ o', Marked key n m (insert i done) offsets' o') (write offsets (key i) i) := by
    obtain ⟨offsets', hwrite, ho⟩ := h.contents.write (i := key i) (by omega) i
    have hfirst := first_eq_self hmono hi hnew
    refine Returns.of_eq hwrite ⟨_, ho, fun u hu => ?_, fun j hj hnew' => ?_⟩
    · by_cases heq : u = key i
      · rw [heq, Function.update_self, hfirst]
        exact Or.inl ⟨rfl, i, hi, rfl⟩
      · rw [Function.update_of_ne heq]
        exact h.right u hu
    · by_cases heq : key j = key i
      · rw [heq, Function.update_self, hfirst]
      · rw [Function.update_of_ne heq]
        exact h.marked j ((Finset.mem_insert.mp hj).resolve_left fun hji => heq (hji ▸ rfl)) hnew'
  unfold GraphFile.markFirst
  refine Returns.bind_eq (hkeys i hi) ?_
  by_cases hzero : i = 0
  · rw [if_pos hzero]
    exact hwrite (Or.inl hzero)
  · rw [if_neg hzero]
    refine Returns.bind_eq (hkeys (i - 1) (by omega)) ?_
    by_cases hne : key i ≠ key (i - 1)
    · rw [if_pos hne]
      exact hwrite (Or.inr hne)
    · rw [if_neg hne]
      refine Returns.pure ⟨o, h.contents, h.right, fun j hj hnew => ?_⟩
      rcases Finset.mem_insert.mp hj with rfl | hj
      · exact absurd hnew (not_or.mpr ⟨hzero, hne⟩)
      · exact h.marked j hj hnew

/-- Offsets are right or still unset, and right for the keys that occur and the vertices that are done. -/
structure Filled (key : ℕ → ℕ) (n m : ℕ) (done : Finset ℕ) (offsets : Array ℕ) (o : ℕ → ℕ) : Prop where
  contents : Contents offsets (n + 1) o
  right : ∀ u ≤ n, o u = first key m u ∨ o u = m
  occurs : ∀ i < m, o (key i) = first key m (key i)
  filled : ∀ i ∈ done, i ≤ n → o (n - i) = first key m (n - i)

/-- Before any gap is filled the records are all there is. -/
theorem Marked.filled {o : ℕ → ℕ} (h : Marked key n m (Finset.range m) offsets o) :
    Filled key n m ∅ offsets o := by
  refine ⟨h.contents, fun u hu => (h.right u hu).imp_left And.left, fun i hi => ?_,
    fun i hi => absurd hi (Finset.notMem_empty i)⟩
  obtain ⟨j, hj, hkey, hnew⟩ : ∃ j < m, key j = key i ∧ (j = 0 ∨ key j ≠ key (j - 1)) := exists_new hi
  rw [← hkey]
  exact h.marked j (Finset.mem_range.mpr hj) hnew

/-- Vertices with unset offsets do not occur. -/
theorem Filled.skip {done : Finset ℕ} {o : ℕ → ℕ} (h : Filled key n m done offsets o)
    (hmono : ∀ i j, i ≤ j → j < m → key i ≤ key j) (huv : u ≤ v) (hunset : ∀ w, u ≤ w → w < v → o w = m) :
    first key m v = first key m u := by
  induction v, huv using Nat.le_induction with
  | base => rfl
  | succ v huv ih =>
    rw [first_succ, ih fun w hw hw' => hunset w hw (by omega)]
    have hnone : Nat.count (fun k => key k = v) m = Nat.count (fun k => key k = v) 0 := by
      refine count_of_none (Nat.zero_le m) fun i _ hi hkey => ?_
      have hset := h.occurs i hi
      rw [hkey, hunset v huv (Nat.lt_succ_self v)] at hset
      have := first_lt hmono hi
      rw [hkey] at this
      omega
    rw [hnone, Nat.count_zero, Nat.add_zero]

/-- An iteration fills the gap before its vertex. -/
theorem Filled.nextOffset {done : Finset ℕ} {o : ℕ → ℕ} (h : Filled key n m done offsets o)
    (hmono : ∀ i j, i ≤ j → j < m → key i ≤ key j) (hkey : ∀ i < m, key i < n) (hi : i ≤ n)
    (huv : n - i < v) (hv : v ≤ n + 1)
    (hunset : ∀ w, n - i ≤ w → w < v → o w = m) :
    Returns (fun offsets' => ∃ o', Filled key n m (insert i done) offsets' o')
      (nextOffset n m (n - i) v offsets) := by
  induction hn : n + 1 - v generalizing v with
  | zero =>
    obtain rfl : v = n + 1 := by omega
    have hend := h.skip hmono (u := n - i) (v := n + 1) (by omega) hunset
    rw [first_eq_of_lt fun i hi => (hkey i hi).trans (Nat.lt_succ_self n)] at hend
    rw [GraphFile.nextOffset, if_neg (by omega)]
    refine Returns.pure ⟨o, h.contents, h.right, h.occurs, fun j hj hjn => ?_⟩
    rcases Finset.mem_insert.mp hj with rfl | hj
    · rw [← hend]
      exact hunset _ le_rfl huv
    · exact h.filled j hj hjn
  | succ rest ih =>
    rw [GraphFile.nextOffset, if_pos (by omega)]
    refine Returns.bind_eq (h.contents.get v (by omega)) ?_
    by_cases hset : o v ≠ m
    · rw [if_pos hset]
      have hright : o v = first key m (n - i) :=
        ((h.right v (by omega)).resolve_right hset).trans (h.skip hmono huv.le hunset)
      obtain ⟨offsets', hwrite, ho⟩ := h.contents.write (i := n - i) (by omega) (o v)
      refine Returns.of_eq hwrite ⟨_, ho, fun u hu => ?_, fun j hj => ?_, fun j hj hjn => ?_⟩
      · by_cases heq : u = n - i
        · rw [heq, Function.update_self]
          exact Or.inl hright
        · rw [Function.update_of_ne heq]
          exact h.right u hu
      · by_cases heq : key j = n - i
        · rw [heq, Function.update_self, hright]
        · rw [Function.update_of_ne heq]
          exact h.occurs j hj
      · by_cases heq : n - j = n - i
        · rw [heq, Function.update_self, hright]
        · rw [Function.update_of_ne heq]
          exact h.filled j ((Finset.mem_insert.mp hj).resolve_left fun hji => heq (hji ▸ rfl)) hjn
    · rw [if_neg hset]
      refine ih (v := v + 1) (by omega) (by omega) (fun w hw hw' => ?_) (by omega)
      by_cases hlt : w < v
      · exact hunset w hw hlt
      · obtain rfl : w = v := by omega
        exact not_not.mp hset

/-- All gaps are filled. -/
theorem returns_fillGaps {o : ℕ → ℕ} (schedule : Schedule) (hmarked : Marked key n m (Finset.range m) offsets o)
    (hmono : ∀ i j, i ≤ j → j < m → key i ≤ key j) (hkey : ∀ i < m, key i < n) :
    Returns (fun offsets' => IsOffsets offsets' n m (first key m)) (fillGaps schedule n m offsets) := by
  unfold fillGaps
  refine (Returns.parallelLoop (I := fun done offsets' => ∃ o', Filled key n m done offsets' o')
    ⟨o, hmarked.filled⟩ ?_).mono ?_
  · rintro done i offsets' hi - ⟨o', h⟩
    refine Returns.bind_eq (h.contents.get (n - i) (by omega)) ?_
    by_cases hset : o' (n - i) ≠ m
    · rw [if_pos hset]
      refine Returns.pure ⟨o', h.contents, h.right, h.occurs, fun j hj hjn => ?_⟩
      rcases Finset.mem_insert.mp hj with rfl | hj
      · exact (h.right _ (by omega)).resolve_right hset
      · exact h.filled j hj hjn
    · rw [if_neg hset]
      refine h.nextOffset hmono hkey (by omega) (Nat.lt_succ_self _) (by omega) fun w hw hw' => ?_
      obtain rfl : w = n - i := by omega
      exact not_not.mp hset
  · rintro offsets' ⟨o', h⟩
    refine ⟨h.contents.congr fun u hu => ?_, first_zero, fun u _ => first_mono (Nat.le_succ u),
      first_eq_of_lt hkey⟩
    have hfilled := h.filled (n - u) (Finset.mem_range.mpr (by omega)) (by omega)
    rwa [show n - (n - u) = u by omega] at hfilled

section Slots

variable {σ T : Type} {o : ℕ → ℕ}

/-- A loop over the vertices with a loop over the slots of each vertex visits every slot. -/
theorem IsOffsets.returns_slots (h : IsOffsets offsets n m o) (schedule : Schedule) (inner : ℕ → Schedule)
    {I : (ℕ → Prop) → σ → Prop} {s : σ} (body : ℕ → ℕ → σ → Option σ) (hstart : I (fun _ => False) s)
    (hmono : ∀ done done' s, (∀ i < m, done' i → done i) → I done s → I done' s)
    (hbody : ∀ u < n, ∀ i, o u ≤ i → i < o (u + 1) → ∀ done s, I done s →
      Returns (I fun j => done j ∨ j = i) (body u i s)) :
    Returns (I fun _ => True) (parallelLoop schedule n s fun u s => do
      let first ← offsets[u]?
      let last ← offsets[u + 1]?
      parallelLoop (inner u) (last - first) s fun k s => body u (first + k) s) := by
  refine (Returns.parallelLoop (I := fun done => I fun i => ∃ u ∈ done, o u ≤ i ∧ i < o (u + 1)) ?_ ?_).mono ?_
  · exact hmono _ _ _ (fun i _ ⟨u, hu, _⟩ => absurd hu (Finset.notMem_empty u)) hstart
  · intro done u s hu hnot hI
    refine Returns.bind_eq (h.contents.get u (by omega)) (Returns.bind_eq (h.contents.get (u + 1) (by omega)) ?_)
    refine (Returns.parallelLoop (I := fun ks => I fun i => (∃ u ∈ done, o u ≤ i ∧ i < o (u + 1)) ∨
      ∃ k ∈ ks, i = o u + k) ?_ ?_).mono ?_
    · exact hmono _ _ _ (fun i _ hor => hor.resolve_right fun ⟨k, hk, _⟩ => Finset.notMem_empty k hk) hI
    · intro ks k s hk _ hI
      refine (hbody u hu (o u + k) (by omega) (by omega) _ s hI).mono fun s' => hmono _ _ s' fun i _ hor => ?_
      rcases hor with hdone | ⟨j, hj, heq⟩
      · exact Or.inl (Or.inl hdone)
      · rcases Finset.mem_insert.mp hj with rfl | hj
        · exact Or.inr heq
        · exact Or.inl (Or.inr ⟨j, hj, heq⟩)
    · intro s' hI
      refine hmono _ _ s' (fun i _ ⟨v, hv, hrange⟩ => ?_) hI
      rcases Finset.mem_insert.mp hv with rfl | hv
      · exact Or.inr ⟨i - o v, Finset.mem_range.mpr (by omega), by omega⟩
      · exact Or.inl ⟨v, hv, hrange⟩
  · intro s' hI
    refine hmono _ _ s' (fun i hi _ => ?_) hI
    obtain ⟨u, hu, hrange⟩ := h.exists_slot hi
    exact ⟨u, Finset.mem_range.mpr hu, hrange⟩

/-- Positions with a property and elements with a property. -/
theorem card_filter_range (a : ℕ → T) (p : T → Prop) [DecidablePred p] :
    ((Finset.range m).filter fun i => p (a i)).card = ((List.range m).map a).countP fun x => decide (p x) := by
  rw [List.countP_map, List.countP_eq_length_filter]
  rfl

/-- A permutation keeps the number of positions with a property. -/
theorem card_filter_of_perm {g e : ℕ → T} (hperm : ((List.range m).map g).Perm ((List.range m).map e))
    (p : T → Prop) [DecidablePred p] : ((Finset.range m).filter fun i => p (g i)).card =
    ((Finset.range m).filter fun i => p (e i)).card := by
  rw [card_filter_range g p, card_filter_range e p, hperm.countP_eq]

/-- The entries with one key, counted over all positions. -/
theorem edgeCount_first {f : ℕ → ℕ} (hmono : ∀ i j, i ≤ j → j < m → key i ≤ key j) (p : ℕ → Prop)
    [DecidablePred p] :
    edgeCount (first key m) f p u = ((Finset.range m).filter fun k => key k = u ∧ p (f k)).card := by
  refine congrArg Finset.card ?_
  ext k
  rw [Finset.mem_filter, Finset.mem_filter, Finset.mem_Ico, mem_first_iff hmono, Finset.mem_range, and_assoc]

end Slots

end GraphFile

end ToggleTree
