import ToggleTree.IndexMap.Repair

/-!
# Extraction

An extraction goes through the flags of a node and selects some of the children; it works on the
selected ones and keeps the others as they are. The node is exact again for the elements that
stay, because a child is left alone only if nothing below it is extracted.
-/

namespace ToggleTree

open Checked

namespace IndexMap

open IndexSet

variable {T : Type} [LinearOrder T] [OrderTop T] {n : ℕ} {S S' : Finset ℕ} {sequence : ℕ → T}

section Scan

/-- What a loop over some flags has found: the flags that are not selected, and the least of their values. -/
structure Scanned (offsets : List ℕ) (selected : ℕ → Prop) (value : ℕ → T) (newWord : Word)
    (aggregate : T) : Prop where
  flag : ∀ o, o ∈ bits newWord ↔ o ∈ offsets ∧ ¬selected o
  least : ∀ t, t ≤ aggregate ↔ ∀ o ∈ offsets, ¬selected o → t ≤ value o

namespace Scanned

variable {offsets : List ℕ} {selected : ℕ → Prop} {value : ℕ → T} {newWord : Word} {aggregate : T} {o : ℕ}

/-- No flag has been looked at. -/
theorem start : Scanned [] selected value 0 (⊤ : T) where
  flag o := by simp
  least t := by simp

omit [OrderTop T] in
/-- The scan depends only on which flags are selected and on the values of the others. -/
theorem congr {selected' : ℕ → Prop} {value' : ℕ → T} (h : Scanned offsets selected value newWord aggregate)
    (hselected : ∀ o ∈ offsets, selected' o ↔ selected o)
    (hvalue : ∀ o ∈ offsets, ¬selected o → value' o = value o) :
    Scanned offsets selected' value' newWord aggregate where
  flag o := by
    rw [h.flag o]
    exact and_congr_right fun ho => not_congr (hselected o ho).symm
  least t := by
    rw [h.least t]
    refine forall₂_congr fun o ho => ?_
    rw [hselected o ho]
    exact forall_congr' fun hsel => by rw [hvalue o ho hsel]

omit [OrderTop T] in
/-- A selected flag does not stay. -/
theorem skip (h : Scanned offsets selected value newWord aggregate) (ho : selected o) :
    Scanned (offsets ++ [o]) selected value newWord aggregate where
  flag p := by
    rw [h.flag p, List.mem_append, List.mem_singleton]
    refine and_congr_left fun hp => (or_iff_left ?_).symm
    rintro rfl
    exact hp ho
  least t := by
    rw [h.least t]
    simp only [List.mem_append, List.mem_singleton, or_imp, forall_and, forall_eq]
    exact (and_iff_left fun hnot => absurd ho hnot).symm

omit [OrderTop T] in
/-- A flag that is not selected stays, and its value counts. -/
theorem keep (h : Scanned offsets selected value newWord aggregate) (ho : ¬selected o) (hlt : o < 64) :
    Scanned (offsets ++ [o]) selected value (newWord ||| ToggleTree.flag o) (min aggregate (value o)) where
  flag p := by
    have hp := h.flag p
    rw [mem_bits] at hp
    rw [mem_bits, getLsbD_or_flag hlt, Bool.or_eq_true, hp, decide_eq_true_eq, List.mem_append,
      List.mem_singleton]
    constructor
    · rintro (⟨hmem, hnot⟩ | rfl)
      · exact ⟨Or.inl hmem, hnot⟩
      · exact ⟨Or.inr rfl, ho⟩
    · rintro ⟨hmem | rfl, hnot⟩
      · exact Or.inl ⟨hmem, hnot⟩
      · exact Or.inr rfl
  least t := by
    rw [le_min_iff, h.least t]
    simp only [List.mem_append, List.mem_singleton, or_imp, forall_and, forall_eq]
    exact and_congr_right fun _ => ⟨fun ht _ => ht, fun ht => ht ho⟩

end Scanned

end Scan

section Node

variable {m : IndexMap T} {L w K v : ℕ}

/-- A node without flags has the greatest value. -/
theorem ExactNode.augval_eq_top (h : ExactNode sequence S m K v) (hzero : m.flag.load K v = 0) :
    m.augval K v = ⊤ := by
  rw [h.augval, ← top_le_iff, le_minBelow]
  intro i hi hiv
  exact absurd hzero (h.flag.ne_zero.mpr ⟨i, hi, hiv⟩)

/-- A leaf whose selected indices have been removed. -/
theorem exactNode_leaf {word newWord : Word} {aggregate : T} {selected : ℕ → Prop}
    (hword : FlagWord word S 0 w)
    (hscan : Scanned (bits word) selected (fun o => sequence (64 * w + o)) newWord aggregate)
    (hS : ∀ o < 64, (64 * w + o ∈ S' ↔ 64 * w + o ∈ S ∧ ¬selected o))
    (hflag : m.flag.load 0 w = newWord) (haug : m.augval 0 w = aggregate) : ExactNode sequence S' m 0 w := by
  have hmem (o : ℕ) (ho : o < 64) (R : Finset ℕ) : (∃ i ∈ R, i / 64 ^ 0 = 64 * w + o) ↔ 64 * w + o ∈ R := by
    simp
  have hbit (o : ℕ) : o ∈ bits newWord ↔ o < 64 ∧ 64 * w + o ∈ S' := by
    rw [hscan.flag o, hword o, and_assoc]
    refine and_congr_right fun ho => ?_
    rw [hmem o ho, hS o ho]
  refine ⟨fun o => ?_, ?_⟩
  · rw [hflag, hbit o]
    exact and_congr_right fun ho => (hmem o ho S').symm
  · rw [haug]
    refine eq_of_forall_le_iff fun t => ?_
    rw [hscan.least t, le_minBelow]
    constructor
    · rintro ht i hi hiw
      obtain ⟨o, ho, rfl⟩ : ∃ o < 64, i = 64 * w + o := ⟨i % 64, by omega, by omega⟩
      obtain ⟨hiS, hsel⟩ := (hS o ho).mp hi
      exact ht o ((hword o).mpr ⟨ho, (hmem o ho S).mpr hiS⟩) hsel
    · intro ht o ho hsel
      obtain ⟨hlt, hex⟩ := (hword o).mp ho
      exact ht _ ((hS o hlt).mpr ⟨(hmem o hlt S).mp hex, hsel⟩) (by omega)

/-- An inner node whose children are exact for the elements that stay. -/
theorem exactNode_inner {word newWord : Word} {aggregate : T} (hword : FlagWord word S (L + 1) w) (hsub : S' ⊆ S)
    (hchild : ∀ o ∈ bits word, ExactNode sequence S' m L (64 * w + o))
    (hnew : ∀ o, o ∈ bits newWord ↔ o ∈ bits word ∧ m.flag.load L (64 * w + o) ≠ 0)
    (hagg : ∀ t, t ≤ aggregate ↔ ∀ o ∈ bits word, t ≤ m.augval L (64 * w + o))
    (hflag : m.flag.load (L + 1) w = newWord) (haug : m.augval (L + 1) w = aggregate) :
    ExactNode sequence S' m (L + 1) w := by
  have hbit : FlagWord newWord S' (L + 1) w := by
    intro o
    rw [hnew o]
    constructor
    · rintro ⟨ho, hne⟩
      exact ⟨bits_lt ho, (hchild o ho).flag.ne_zero.mp hne⟩
    · rintro ⟨ho, i, hi, hio⟩
      have hmem : o ∈ bits word := (hword o).mpr ⟨ho, i, hsub hi, hio⟩
      exact ⟨hmem, (hchild o hmem).flag.ne_zero.mpr ⟨i, hi, hio⟩⟩
  refine ⟨by rw [hflag]; exact hbit, ?_⟩
  rw [haug]
  refine eq_of_forall_le_iff fun t => ?_
  rw [hagg t, le_minBelow_succ hbit]
  refine forall_congr' fun o => ?_
  constructor
  · intro ht ho
    have hmem := ((hnew o).mp ho).1
    rw [← (hchild o hmem).augval]
    exact ht hmem
  · intro ht ho
    by_cases hzero : m.flag.load L (64 * w + o) = 0
    · rw [(hchild o ho).augval_eq_top hzero]
      exact le_top
    · rw [(hchild o ho).augval]
      exact ht ((hnew o).mpr ⟨ho, hzero⟩)

/-- The last loop over the selected children sets the flags of those that have elements left. -/
theorem mem_bits_foldl (childIndex : ℕ → ℕ) (offsets : ℕ → ℕ) {word : Word} (P : ℕ → Prop)
    [DecidablePred P] {k : ℕ} (hchild : ∀ i < k, childIndex i = (64 * w + offsets i) * 64 ^ (L + 1))
    (hlt : ∀ i < k, offsets i < 64) (o : ℕ) :
    o ∈ bits ((List.range k).foldl (fun newWord i =>
        if P i then newWord ||| wordOffset (L + 1) (childIndex i) else newWord) word) ↔
      o ∈ bits word ∨ ∃ i < k, P i ∧ offsets i = o := by
  induction k with
  | zero => simp
  | succ k ih =>
    have hoffset : wordOffset (L + 1) (childIndex k) = ToggleTree.flag (offsets k) := by
      rw [wordOffset_eq, hchild k (by omega), Nat.mul_div_cancel _ (by positivity), Nat.mul_add_mod,
        Nat.mod_eq_of_lt (hlt k (by omega))]
    have hih := ih (fun i hi => hchild i (by omega)) fun i hi => hlt i (by omega)
    rw [List.range_succ, List.foldl_append, List.foldl_cons, List.foldl_nil, hoffset]
    by_cases hP : P k
    · rw [if_pos hP, mem_bits, getLsbD_or_flag (hlt k (by omega)), Bool.or_eq_true, ← mem_bits, hih, or_assoc]
      refine or_congr_right ?_
      rw [decide_eq_true_eq]
      constructor
      · rintro (⟨i, hi, hPi, hio⟩ | rfl)
        · exact ⟨i, by omega, hPi, hio⟩
        · exact ⟨k, by omega, hP, rfl⟩
      · rintro ⟨i, hi, hPi, hio⟩
        rcases Nat.lt_succ_iff_lt_or_eq.mp hi with hi | rfl
        · exact Or.inl ⟨i, hi, hPi, hio⟩
        · exact Or.inr hio.symm
    · rw [if_neg hP, hih]
      refine or_congr_right ⟨fun ⟨i, hi, h⟩ => ⟨i, by omega, h⟩, fun ⟨i, hi, hPi, hio⟩ => ⟨i, ?_, hPi, hio⟩⟩
      have hne : i ≠ k := fun h => hP (h ▸ hPi)
      omega

end Node

section Offsets

variable {offsets : List ℕ} {i j o w : ℕ}

/-- An entry of the offsets. -/
theorem getD_mem (hi : i < offsets.length) : offsets.getD i 0 ∈ offsets := by
  rw [List.getD_eq_getElem _ _ hi]
  exact List.getElem_mem hi

/-- Every offset is an entry of the offsets. -/
theorem exists_getD (ho : o ∈ offsets) : ∃ i < offsets.length, offsets.getD i 0 = o := by
  obtain ⟨i, hi, rfl⟩ := List.mem_iff_getElem.mp ho
  exact ⟨i, hi, List.getD_eq_getElem _ _ hi⟩

/-- An entry of the offsets after a function. -/
theorem getD_map {α : Type} (f : ℕ → α) (d : α) (hi : i < offsets.length) :
    (offsets.map f).getD i d = f (offsets.getD i 0) := by
  rw [List.getD_eq_getElem _ _ (by rwa [List.length_map]), List.getElem_map, List.getD_eq_getElem _ _ hi]

end Offsets

section Selection

/-- The flags of a node that a loop has selected, in the order in which it has met them. -/
structure Selection (word : Word) (selected : ℕ → Prop) (offsets : List ℕ) : Prop where
  mem : ∀ o, o ∈ offsets ↔ o ∈ bits word ∧ selected o
  nodup : offsets.Nodup

namespace Selection

variable {word : Word} {selected : ℕ → Prop} {offsets : List ℕ} {m : IndexMap T} {L w i j o : ℕ}

/-- The selected flags of a word in their order. -/
theorem of_filter (word : Word) (selected : ℕ → Prop) [DecidablePred selected] :
    Selection word selected ((bits word).filter selected) where
  mem o := by rw [List.mem_filter, decide_eq_true_eq]
  nodup := (bits_nodup word).filter _

section

variable (h : Selection word selected offsets)
include h

/-- A selected flag is a flag of the word. -/
theorem bit (hi : i < offsets.length) : offsets.getD i 0 ∈ bits word := ((h.mem _).mp (getD_mem hi)).1

/-- A selected flag is one of 64. -/
theorem lt (hi : i < offsets.length) : offsets.getD i 0 < 64 := bits_lt (h.bit hi)

/-- Different numbers belong to different children. -/
theorem injective (w : ℕ) (hi : i < offsets.length) (hj : j < offsets.length)
    (heq : 64 * w + offsets.getD i 0 = 64 * w + offsets.getD j 0) : i = j := by
  have hij := Nat.add_left_cancel heq
  rw [List.getD_eq_getElem _ _ hi, List.getD_eq_getElem _ _ hj] at hij
  exact h.nodup.getElem_inj_iff.mp hij

/-- The nodes below a selected child lie below the node. -/
theorem under {K v : ℕ} (hi : i < offsets.length) (hu : Under L (64 * w + offsets.getD i 0) K v) :
    Under (L + 1) w K v := hu.parent (h.lt hi)

/-- The child at a selected flag is in the tree. -/
theorem inBounds (hword : FlagWord word S (L + 1) w) (hS : ∀ i ∈ S, i < n) (hL : L + 1 < numLayers n)
    (hi : i < offsets.length) : InBounds n L (64 * w + offsets.getD i 0) := by
  obtain ⟨_, j, hj, hji⟩ := (hword _).mp (h.bit hi)
  exact ⟨by omega, j, hS j hj, hji⟩

omit h in
/-- What lies below a child that is not selected lies below no selected one. -/
theorem not_under {K v : ℕ} (ho : o ∉ offsets) (hu : Under L (64 * w + o) K v) (hi : i < offsets.length) :
    ¬Under L (64 * w + offsets.getD i 0) K v := by
  intro hu'
  have heq : o = offsets.getD i 0 := Nat.add_left_cancel (hu.unique hu')
  exact ho (heq ▸ getD_mem hi)

omit [LinearOrder T] [OrderTop T] in
/-- The last loop over the selected children sets the flags of those that are not empty. -/
theorem mem_newWord {childIndex : ℕ → ℕ} {kept : Word}
    (hchild : ∀ i < offsets.length, childIndex i = (64 * w + offsets.getD i 0) * 64 ^ (L + 1)) (o : ℕ) :
    o ∈ bits ((List.range offsets.length).foldl (fun newWord i =>
        if m.flag.load L (wordId L (childIndex i)) ≠ 0 then
          newWord ||| wordOffset (L + 1) (childIndex i) else newWord) kept) ↔
      o ∈ bits kept ∨ o ∈ offsets ∧ m.flag.load L (64 * w + o) ≠ 0 := by
  rw [mem_bits_foldl childIndex (fun i => offsets.getD i 0)
    (fun i => m.flag.load L (wordId L (childIndex i)) ≠ 0) hchild fun i hi => h.lt hi]
  refine or_congr_right ⟨?_, ?_⟩
  · rintro ⟨i, hi, hne, rfl⟩
    rw [hchild i hi, wordId_node] at hne
    exact ⟨getD_mem hi, hne⟩
  · rintro ⟨ho, hne⟩
    obtain ⟨i, hi, rfl⟩ := exists_getD ho
    refine ⟨i, hi, ?_, rfl⟩
    rwa [hchild i hi, wordId_node]

end

/-- The last loop over the selected children takes the least value of those that are not empty. -/
theorem le_leastOf {S' : Finset ℕ} {least t : T} {values : ℕ → T}
    (hvalues : ∀ i < offsets.length, values i = m.augval L (64 * w + offsets.getD i 0))
    (hexact : ∀ i < offsets.length, ExactNode sequence S' m L (64 * w + offsets.getD i 0)) :
    t ≤ leastOf least (List.range offsets.length) values ↔
      t ≤ least ∧ ∀ o ∈ offsets, m.flag.load L (64 * w + o) ≠ 0 → t ≤ m.augval L (64 * w + o) := by
  rw [IndexMap.le_leastOf]
  refine and_congr_right fun _ => ⟨fun ht o ho _ => ?_, fun ht i hi => ?_⟩
  · obtain ⟨i, hi, rfl⟩ := exists_getD ho
    exact (ht i (List.mem_range.mpr hi)).trans_eq (hvalues i hi)
  · have hi' := List.mem_range.mp hi
    rw [hvalues i hi']
    by_cases hzero : m.flag.load L (64 * w + offsets.getD i 0) = 0
    · rw [(hexact i hi').augval_eq_top hzero]
      exact le_top
    · exact ht _ (getD_mem hi') hzero

/-- What is low enough lies below a selected child. -/
theorem exists_child {threshold : T} {x : ℕ}
    (h : Selection (m.flag.load (L + 1) w) (fun o => m.augval L (64 * w + o) ≤ threshold) offsets)
    (hexact : ∀ K v, Under (L + 1) w K v → ExactNode sequence S m K v) (hx : x ∈ S)
    (hxw : x / 64 ^ (L + 1 + 1) = w) (hle : sequence x ≤ threshold) :
    ∃ i < offsets.length, x / 64 ^ (L + 1) = 64 * w + offsets.getD i 0 := by
  have hxo : x / 64 ^ (L + 1) = 64 * w + x / 64 ^ (L + 1) % 64 := by
    rw [← hxw, div_pow_succ x (L + 1), Nat.div_add_mod]
  have hbit : x / 64 ^ (L + 1) % 64 ∈ bits (m.flag.load (L + 1) w) :=
    ((hexact (L + 1) w (under_self (L + 1) w)).flag _).mpr ⟨Nat.mod_lt _ (by norm_num), x, hx, hxo⟩
  have hsel : m.augval L (64 * w + x / 64 ^ (L + 1) % 64) ≤ threshold := by
    rw [(hexact L _ ((under_self L _).parent (bits_lt hbit))).augval]
    exact (le_minBelow.mp le_rfl x hx hxo).trans hle
  obtain ⟨i, hi, hio⟩ := exists_getD ((h.mem _).mpr ⟨hbit, hsel⟩)
  exact ⟨i, hi, by rw [hio, ← hxo]⟩

end Selection

end Selection

section Loops

/-- The bit of a child in the word of its node. -/
theorem wordOffset_child {L w o : ℕ} (ho : o < 64) :
    wordOffset L ((64 * w + o) * 64 ^ L) = ToggleTree.flag o := by
  rw [wordOffset_eq, Nat.mul_div_cancel _ (by positivity), Nat.mul_add_mod, Nat.mod_eq_of_lt ho]

/-- A loop over the numbers of the set bits is a loop over the set bits. -/
theorem foldl_popOffset {σ : Type} (step : σ → ℕ → σ) (s : σ) (word : Word) :
    (List.range (popCount word)).foldl (fun r i => step r (popOffset i word)) s = (bits word).foldl step s := by
  rw [← map_popOffset_range, List.foldl_map]

/-- The loop over the flags of a leaf node splits them by the threshold. -/
theorem scanLeaf_spec (sequence : ℕ → T) (threshold : T) (w : ℕ) (word : Word) :
    Scanned (bits word) (fun o => sequence (64 * w + o) ≤ threshold) (fun o => sequence (64 * w + o))
        (scanLeaf sequence threshold (w * 64 ^ (0 + 1)) word).newWord
        (scanLeaf sequence threshold (w * 64 ^ (0 + 1)) word).aggregate ∧
      (scanLeaf sequence threshold (w * 64 ^ (0 + 1)) word).extracted =
        ((bits word).filter fun o => sequence (64 * w + o) ≤ threshold).map fun o => 64 * w + o := by
  unfold scanLeaf
  simp only [leaf_index]
  rw [foldl_popOffset fun (r : LeafScan T) o => if sequence (64 * w + o) ≤ threshold then
    { r with extracted := r.extracted ++ [64 * w + o] }
    else { r with
      newWord := r.newWord ||| wordOffset 0 (64 * w + o)
      aggregate := min r.aggregate (sequence (64 * w + o)) }]
  have hlt : ∀ o ∈ bits word, o < 64 := fun o => bits_lt
  generalize bits word = offsets at hlt ⊢
  induction offsets using List.reverseRecOn with
  | nil => exact ⟨Scanned.start, rfl⟩
  | append_singleton l o ih =>
    obtain ⟨hscan, hextracted⟩ := ih fun p hp => hlt p (List.mem_append_left _ hp)
    have ho : o < 64 := hlt o (by simp)
    have hoffset : wordOffset 0 (64 * w + o) = ToggleTree.flag o := by
      simpa using wordOffset_child (L := 0) (w := w) ho
    rw [List.foldl_append, List.foldl_cons, List.foldl_nil, List.filter_append, List.map_append, ← hextracted]
    by_cases hle : sequence (64 * w + o) ≤ threshold
    · rw [if_pos hle]
      exact ⟨hscan.skip hle, by simp [hle]⟩
    · rw [if_neg hle, hoffset]
      exact ⟨hscan.keep hle ho, by simp [hle]⟩

/-- The first loop over the flags of an inner node splits them by the threshold. -/
theorem scanNode_spec (m : IndexMap T) (threshold : T) (L w : ℕ) (word : Word) :
    Scanned (bits word) (fun o => m.augval L (64 * w + o) ≤ threshold) (fun o => m.augval L (64 * w + o))
        (scanNode threshold L (w * 64 ^ (L + 1 + 1)) word m).newWord
        (scanNode threshold L (w * 64 ^ (L + 1 + 1)) word m).aggregate ∧
      (scanNode threshold L (w * 64 ^ (L + 1 + 1)) word m).childIndices =
        ((bits word).filter fun o => m.augval L (64 * w + o) ≤ threshold).map fun o =>
          (64 * w + o) * 64 ^ (L + 1) := by
  unfold scanNode
  simp only [child_index, wordId_node]
  rw [foldl_popOffset fun (r : NodeScan T) o => if m.augval L (64 * w + o) ≤ threshold then
    { r with childIndices := r.childIndices ++ [(64 * w + o) * 64 ^ (L + 1)] }
    else { r with
      newWord := r.newWord ||| ToggleTree.flag o
      aggregate := min r.aggregate (m.augval L (64 * w + o)) }]
  have hlt : ∀ o ∈ bits word, o < 64 := fun o => bits_lt
  generalize bits word = offsets at hlt ⊢
  induction offsets using List.reverseRecOn with
  | nil => exact ⟨Scanned.start, rfl⟩
  | append_singleton l o ih =>
    obtain ⟨hscan, hchildren⟩ := ih fun p hp => hlt p (List.mem_append_left _ hp)
    have ho : o < 64 := hlt o (by simp)
    rw [List.foldl_append, List.foldl_cons, List.foldl_nil, List.filter_append, List.map_append, ← hchildren]
    by_cases hle : m.augval L (64 * w + o) ≤ threshold
    · rw [if_pos hle]
      exact ⟨hscan.skip hle, by simp [hle]⟩
    · rw [if_neg hle]
      exact ⟨hscan.keep hle ho, by simp [hle]⟩

end Loops

variable (schedule : ℕ → ℕ → Schedule)

/-- The elements that stay. -/
def above (sequence : ℕ → T) (threshold : T) (S : Finset ℕ) : Finset ℕ :=
  S.filter fun i => ¬sequence i ≤ threshold

/-- What an extraction below a node leaves behind. -/
structure ExtractedBelow (n : ℕ) (sequence : ℕ → T) (S : Finset ℕ) (threshold : T) (L w : ℕ)
    (m : IndexMap T) (calls : List ℕ) (r : ℕ × IndexMap T × List ℕ) : Prop where
  nodes : ∀ K v, Under L w K v → ExactNode sequence (above sequence threshold S) r.2.1 K v
  changed : ChangedBelow n L w m r.2.1
  dirty : r.2.1.dirty = m.dirty
  calls : ∃ new : List ℕ, r.2.2 = calls ++ new ∧ new.Nodup ∧ r.1 = new.length ∧
    ∀ i, i ∈ new ↔ i ∈ S ∧ sequence i ≤ threshold ∧ i / 64 ^ (L + 1) = w

section Write

variable {m : IndexMap T} {L w : ℕ} (newWord : Word) (aggregate : T)

omit [LinearOrder T] [OrderTop T] in
/-- The nodes after the word and the value of a node are written. -/
theorem node_write (halloc : Allocated n m) (hin : InBounds n L w) (K v : ℕ) :
    ((m.setFlag L w newWord).setAugval L w aggregate).node K v =
      if K = L ∧ v = w then (newWord, m.dirty.load K v, aggregate) else m.node K v := by
  rw [node_setAugval, node_setFlag halloc hin]
  by_cases hKv : K = L ∧ v = w
  · rw [if_pos hKv, if_pos hKv, if_pos hKv]
    rfl
  · rw [if_neg hKv, if_neg hKv, if_neg hKv]

omit [LinearOrder T] [OrderTop T] in
/-- Writing the word and the value of a node changes it alone. -/
theorem changedBelow_write {m₀ : IndexMap T} (halloc : Allocated n m) (hin : InBounds n L w)
    (hsame : ∀ K v, ¬Under L w K v → m.node K v = m₀.node K v) :
    ChangedBelow n L w m₀ ((m.setFlag L w newWord).setAugval L w aggregate) := by
  refine ⟨halloc.setFlag.setAugval, fun K v hu => ?_⟩
  rw [node_write newWord aggregate halloc hin, if_neg (by rintro ⟨rfl, rfl⟩; exact hu (under_self _ _))]
  exact hsame K v hu

end Write

/-- An inner node after the loop over the selected children. The values may have changed below the
selected children only. -/
theorem nodes_of_selected {before : ℕ → T} {m m' : IndexMap T} {L w : ℕ} {offsets : List ℕ} {selected : ℕ → Prop}
    {kept newWord : Word} {least aggregate : T} (hin : InBounds n (L + 1) w) (halloc : Allocated n m')
    (hsub : S' ⊆ S)
    (hexact : ∀ K v, Under (L + 1) w K v → ExactNode before S m K v)
    (hoffsets : ∀ o, o ∈ offsets ↔ o ∈ bits (m.flag.load (L + 1) w) ∧ selected o)
    (hselected : ∀ o ∈ offsets, ∀ K v, Under L (64 * w + o) K v → ExactNode sequence S' m' K v)
    (hrest : ∀ o, o < 64 → o ∉ offsets → ∀ K v, Under L (64 * w + o) K v → m'.node K v = m.node K v)
    (hvalue : ∀ o, o < 64 → o ∉ offsets → ∀ i ∈ S, i / 64 ^ (L + 1) = 64 * w + o → sequence i = before i)
    (hstay : ∀ o ∈ bits (m.flag.load (L + 1) w), ¬selected o → ∀ i ∈ S, i / 64 ^ (L + 1) = 64 * w + o → i ∈ S')
    (hscan : Scanned (bits (m.flag.load (L + 1) w)) selected (fun o => m.augval L (64 * w + o)) kept least)
    (hnew : ∀ o, o ∈ bits newWord ↔ o ∈ bits kept ∨ o ∈ offsets ∧ m'.flag.load L (64 * w + o) ≠ 0)
    (hagg : ∀ t, t ≤ aggregate ↔
      t ≤ least ∧ ∀ o ∈ offsets, m'.flag.load L (64 * w + o) ≠ 0 → t ≤ m'.augval L (64 * w + o)) :
    ∀ K v, Under (L + 1) w K v →
      ExactNode sequence S' ((m'.setFlag (L + 1) w newWord).setAugval (L + 1) w aggregate) K v := by
  have hword := (hexact (L + 1) w (under_self (L + 1) w)).flag
  have hnode := node_write newWord aggregate halloc hin
  -- a child that is not selected keeps all its elements
  have hunselected (o : ℕ) (hlt : o < 64) (ho : o ∉ offsets) (K v : ℕ) (hu : Under L (64 * w + o) K v) :
      ExactNode sequence S' m' K v := by
    refine ((hexact K v (hu.parent hlt)).congr (fun i hiv => ⟨fun hi => hsub hi, fun hi => ?_⟩)
      fun i hi hiv => hvalue o hlt ho i hi (hu.div hiv)).of_node (hrest o hlt ho K v hu)
    have hbit : o ∈ bits (m.flag.load (L + 1) w) := (hword o).mpr ⟨hlt, i, hi, hu.div hiv⟩
    exact hstay o hbit (fun hsel => ho ((hoffsets o).mpr ⟨hbit, hsel⟩)) i hi (hu.div hiv)
  have hbelow (o : ℕ) (hlt : o < 64) (K v : ℕ) (hu : Under L (64 * w + o) K v) :
    ExactNode sequence S' m' K v := by
    by_cases ho : o ∈ offsets
    · exact hselected o ho K v hu
    · exact hunselected o hlt ho K v hu
  have hsame' {K v : ℕ} (hKv : ¬(K = L + 1 ∧ v = w)) :
      ((m'.setFlag (L + 1) w newWord).setAugval (L + 1) w aggregate).node K v = m'.node K v :=
    (hnode K v).trans (if_neg hKv)
  have hchild (o : ℕ) : ¬(L = L + 1 ∧ 64 * w + o = w) := by omega
  have hself := (hnode (L + 1) w).trans (if_pos ⟨rfl, rfl⟩)
  have hflag (o : ℕ) : ((m'.setFlag (L + 1) w newWord).setAugval (L + 1) w aggregate).flag.load L (64 * w + o) =
      m'.flag.load L (64 * w + o) := congrArg Prod.fst (hsame' (hchild o))
  have haug (o : ℕ) : ((m'.setFlag (L + 1) w newWord).setAugval (L + 1) w aggregate).augval L (64 * w + o) =
      m'.augval L (64 * w + o) := congrArg (fun x => x.2.2) (hsame' (hchild o))
  have hold (o : ℕ) (hlt : o < 64) (ho : o ∉ offsets) : m'.augval L (64 * w + o) = m.augval L (64 * w + o) :=
    congrArg (fun x => x.2.2) (hrest o hlt ho L _ (under_self L _))
  have htop : ExactNode sequence S' ((m'.setFlag (L + 1) w newWord).setAugval (L + 1) w aggregate) (L + 1) w := by
    refine exactNode_inner hword hsub (fun o ho => ?_) (fun o => ?_) (fun t => ?_) (congrArg Prod.fst hself)
      (congrArg (fun x => x.2.2) hself)
    · exact (hbelow o (bits_lt ho) L _ (under_self L _)).of_node (hsame' (hchild o))
    · rw [hflag, hnew o, hscan.flag o]
      constructor
      · rintro (⟨hbit, hsel⟩ | ⟨ho, hne⟩)
        · refine ⟨hbit, ?_⟩
          rw [(hbelow o (bits_lt hbit) L _ (under_self L _)).flag.ne_zero]
          obtain ⟨_, i, hi, hio⟩ := (hword o).mp hbit
          exact ⟨i, hstay o hbit hsel i hi hio, hio⟩
        · exact ⟨((hoffsets o).mp ho).1, hne⟩
      · rintro ⟨hbit, hne⟩
        by_cases hsel : selected o
        · exact Or.inr ⟨(hoffsets o).mpr ⟨hbit, hsel⟩, hne⟩
        · exact Or.inl ⟨hbit, hsel⟩
    · change t ≤ aggregate ↔ _
      rw [hagg t, hscan.least t]
      constructor
      · rintro ⟨hleast, hoff⟩ o ho
        rw [haug o]
        by_cases hmem : o ∈ offsets
        · by_cases hzero : m'.flag.load L (64 * w + o) = 0
          · rw [(hbelow o (bits_lt ho) L _ (under_self L _)).augval_eq_top hzero]
            exact le_top
          · exact hoff o hmem hzero
        · rw [hold o (bits_lt ho) hmem]
          exact hleast o ho fun hsel => hmem ((hoffsets o).mpr ⟨ho, hsel⟩)
      · intro ht
        refine ⟨fun o ho hsel => ?_, fun o ho _ => ?_⟩
        · rw [← hold o (bits_lt ho) fun hmem => hsel ((hoffsets o).mp hmem).2, ← haug o]
          exact ht o ho
        · rw [← haug o]
          exact ht o ((hoffsets o).mp ho).1
  intro K v hu
  rcases hu.cases with ⟨rfl, rfl⟩ | ⟨o, hlt, hu'⟩
  · exact htop
  · refine (hbelow o hlt K v hu').of_node (hsame' ?_)
    rintro ⟨rfl, rfl⟩
    exact not_under_self L _ _ hu'

/-- An extraction at a leaf. -/
theorem extractMinAt_leaf (threshold : T) {w : ℕ} {m : IndexMap T} (calls : List ℕ) (hin : InBounds n 0 w)
    (halloc : Allocated n m) (htop : ExactNode sequence S m 0 w) :
    ExtractedBelow n sequence S threshold 0 w m calls
      (extractMinAt schedule sequence threshold 0 (w * 64 ^ (0 + 1)) (m, calls)) := by
  obtain ⟨hscan, hextracted⟩ := scanLeaf_spec sequence threshold w (m.flag.load 0 w)
  unfold extractMinAt
  simp only [wordId_node]
  generalize scanLeaf sequence threshold (w * 64 ^ (0 + 1)) (m.flag.load 0 w) = r at hscan hextracted
  have hnode := node_write r.newWord r.aggregate halloc hin
  refine ⟨fun K v hu => ?_, changedBelow_write _ _ halloc hin fun _ _ _ => rfl, rfl, r.extracted, rfl, ?_,
    rfl, fun i => ?_⟩
  · obtain rfl : K = 0 := Nat.le_zero.mp hu.1
    obtain rfl : v = w := by simpa using hu.2
    have hself := hnode 0 v
    rw [if_pos ⟨rfl, rfl⟩] at hself
    refine exactNode_leaf htop.flag hscan (fun o _ => ?_) (congrArg Prod.fst hself)
      (congrArg (fun x => x.2.2) hself)
    rw [above, Finset.mem_filter]
  · rw [hextracted]
    exact ((bits_nodup _).filter _).map fun a b h => Nat.add_left_cancel h
  · rw [hextracted, List.mem_map]
    constructor
    · rintro ⟨o, ho, rfl⟩
      obtain ⟨hbit, hle⟩ := List.mem_filter.mp ho
      obtain ⟨hlt, i, hi, hio⟩ := (htop.flag o).mp hbit
      rw [pow_zero, Nat.div_one] at hio
      exact ⟨hio ▸ hi, by simpa using hle, by omega⟩
    · rintro ⟨hi, hle, hiw⟩
      have hio : 64 * w + i % 64 = i := by omega
      refine ⟨i % 64, List.mem_filter.mpr ⟨(htop.flag _).mpr ⟨by omega, i, hi, ?_⟩, ?_⟩, hio⟩
      · rw [pow_zero, Nat.div_one, hio]
      · rw [hio]
        exact decide_eq_true hle

/-- The loop over the selected children of a node, once the iterations in `done` have run. -/
structure ExtractedChildren (sequence : ℕ → T) (S : Finset ℕ) (threshold : T) (L : ℕ) (child : ℕ → ℕ)
    (m : IndexMap T)
    (calls : List ℕ) (done : Finset ℕ) (q : (ℕ → ℕ) × (ℕ → T) × IndexMap T × List ℕ) : Prop where
  dirty : q.2.2.1.dirty = m.dirty
  least : ∀ i ∈ done, q.2.1 i = q.2.2.1.augval L (child i)
  nodes : ∀ i ∈ done, ∀ K v, Under L (child i) K v → ExactNode sequence (above sequence threshold S) q.2.2.1 K v
  calls : ∃ new : List ℕ, q.2.2.2 = calls ++ new ∧ new.Nodup ∧ ∑ i ∈ done, q.1 i = new.length ∧
    ∀ x, x ∈ new ↔ x ∈ S ∧ sequence x ≤ threshold ∧ ∃ i ∈ done, x / 64 ^ (L + 1) = child i

namespace ExtractedChildren

variable {threshold : T} {L : ℕ} {child : ℕ → ℕ} {m : IndexMap T} {calls : List ℕ} {done : Finset ℕ}
  {q : (ℕ → ℕ) × (ℕ → T) × IndexMap T × List ℕ}

/-- Before any call below a child. -/
theorem start :
    ExtractedChildren sequence S threshold L child m calls ∅ ((fun _ => 0), (fun _ => ⊤), m, calls) where
  dirty := rfl
  least i hi := absurd hi (Finset.notMem_empty i)
  nodes i hi := absurd hi (Finset.notMem_empty i)
  calls := ⟨[], by simp⟩

/-- One more iteration; the children of the others are not touched. -/
theorem step (h : ExtractedChildren sequence S threshold L child m calls done q) {i : ℕ} (hnot : i ∉ done)
    (hinj : ∀ j ∈ done, child j ≠ child i) {p : ℕ × IndexMap T × List ℕ}
    (hp : ExtractedBelow n sequence S threshold L (child i) q.2.2.1 q.2.2.2 p) :
    ExtractedChildren sequence S threshold L child m calls (Insert.insert i done)
      (Function.update q.1 i p.1, Function.update q.2.1 i (p.2.1.augval L (child i)), p.2) := by
  have hsame {j K v : ℕ} (hj : j ∈ done) (hu : Under L (child j) K v) : p.2.1.node K v = q.2.2.1.node K v :=
    hp.changed.same K v fun hu' => hinj j hj (hu.unique hu')
  refine ⟨hp.dirty.trans h.dirty, fun j hj => ?_, fun j hj K v hu => ?_, ?_⟩
  · rcases Finset.mem_insert.mp hj with rfl | hj
    · exact Function.update_self _ _ _
    · dsimp only
      rw [Function.update_of_ne fun hji : j = i => hnot (hji ▸ hj), h.least j hj]
      exact (congrArg (fun x => x.2.2) (hsame hj (under_self L _))).symm
  · rcases Finset.mem_insert.mp hj with rfl | hj
    · exact hp.nodes K v hu
    · exact (h.nodes j hj K v hu).of_node (hsame hj hu)
  · obtain ⟨new, hnew, hnodup, hcount, hmem⟩ := h.calls
    obtain ⟨new', hnew', hnodup', hlen, hmem'⟩ := hp.calls
    refine ⟨new ++ new', by rw [hnew', hnew, List.append_assoc], ?_, ?_, fun x => ?_⟩
    · refine List.nodup_append.mpr ⟨hnodup, hnodup', fun x hx y hy hxy => ?_⟩
      obtain ⟨_, _, j, hj, hxj⟩ := (hmem x).mp hx
      have hyi := ((hmem' y).mp hy).2.2
      rw [← hxy, hxj] at hyi
      exact hinj j hj hyi
    · dsimp only
      rw [Finset.sum_insert hnot, Function.update_self, List.length_append, ← hcount, ← hlen, add_comm]
      refine congrArg (fun c => c + _) (Finset.sum_congr rfl fun j hj => ?_)
      exact Function.update_of_ne (fun h : j = i => hnot (h ▸ hj)) _ _
    · rw [List.mem_append, hmem, hmem', Finset.exists_mem_insert, ← and_or_left, ← and_or_left, or_comm]

end ExtractedChildren

/-- A call of `extract_min` below a node removes the indices up to the threshold and leaves the nodes
exact. -/
theorem extractMinAt_spec (hS : ∀ i ∈ S, i < n) (threshold : T) {L w : ℕ} {m : IndexMap T} (calls : List ℕ)
    (hin : InBounds n L w) (halloc : Allocated n m) (hexact : ∀ K v, Under L w K v → ExactNode sequence S m K v) :
    ExtractedBelow n sequence S threshold L w m calls
      (extractMinAt schedule sequence threshold L (w * 64 ^ (L + 1)) (m, calls)) := by
  induction L generalizing w m calls with
  | zero => exact extractMinAt_leaf schedule threshold calls hin halloc (hexact 0 w (under_self 0 w))
  | succ L ih =>
    have htop := hexact (L + 1) w (under_self (L + 1) w)
    obtain ⟨hscan, hchildren⟩ := scanNode_spec m threshold L w (m.flag.load (L + 1) w)
    unfold extractMinAt
    simp only [wordId_node]
    generalize scanNode threshold L (w * 64 ^ (L + 1 + 1)) (m.flag.load (L + 1) w) m = r at hscan hchildren
    have hsel := Selection.of_filter (m.flag.load (L + 1) w) fun o => m.augval L (64 * w + o) ≤ threshold
    generalize (bits (m.flag.load (L + 1) w)).filter (fun o => m.augval L (64 * w + o) ≤ threshold) = offsets
      at hsel hchildren
    have hlength : r.childIndices.length = offsets.length := by rw [hchildren, List.length_map]
    rw [hlength]
    let child := fun i => 64 * w + offsets.getD i 0
    have hindex (i : ℕ) (hi : i < offsets.length) : r.childIndices.getD i 0 = child i * 64 ^ (L + 1) := by
      rw [hchildren, getD_map _ _ hi]
    have hloop := parallelFold_below (fun q : (ℕ → ℕ) × (ℕ → T) × IndexMap T × List ℕ => q.2.2.1)
      (n := n) (L := L)
      (k := offsets.length) child (schedule (L + 1) w) ((fun _ => 0 : ℕ → ℕ), (fun _ => ⊤ : ℕ → T), m, calls)
      (fun i q =>
        let childIndex := r.childIndices.getD i 0
        let p := extractMinAt schedule sequence threshold L childIndex q.2.2
        (Function.update q.1 i p.1, Function.update q.2.1 i (p.2.1.augval L (wordId L childIndex)), p.2))
      (ExtractedChildren sequence S threshold L child m calls)
      (fun i hi j hj => hsel.injective w hi hj) halloc ExtractedChildren.start (by
        intro done i q hi hnot hdone halloc' hfresh hchildren
        have hp := ih (m := q.2.2.1) q.2.2.2 (hsel.inBounds htop.flag hS hin.1 hi) halloc' fun K v hu =>
          (hexact K v (hsel.under hi hu)).of_node (hfresh K v hu)
        dsimp only
        rw [hindex i hi, wordId_node]
        refine ⟨hchildren.step hnot (fun j hj heq => hnot ?_) hp, hp.changed⟩
        exact hsel.injective w (hdone j hj) hi heq ▸ hj)
    generalize parallelFold (schedule (L + 1) w) offsets.length _ _ = q at hloop ⊢
    obtain ⟨counts, least, m', calls'⟩ := q
    obtain ⟨⟨hdirty, hleast, hnodes, new, hnew, hnodup, hcount, hmem⟩, halloc', hsame⟩ := hloop
    dsimp only at hdirty hleast hnodes hnew hcount halloc' hsame ⊢
    have hlow (i : ℕ) (hi : i < offsets.length) := hnodes i (Finset.mem_range.mpr hi)
    refine ⟨nodes_of_selected hin halloc' (Finset.filter_subset _ _) hexact hsel.mem (fun o ho => ?_)
      (fun o _ ho K v hu => hsame K v fun i hi => Selection.not_under ho hu hi) (fun _ _ _ _ _ _ => rfl)
      (fun o ho hsel i hi hio => ?_) hscan (hsel.mem_newWord hindex) (fun t => ?_),
      changedBelow_write _ _ halloc' hin fun K v hu => hsame K v fun i hi hu' => hu (hsel.under hi hu'),
      hdirty, new, hnew, hnodup, ?_, fun x => ?_⟩
    · obtain ⟨i, hi, rfl⟩ := exists_getD ho
      exact hlow i hi
    · refine Finset.mem_filter.mpr ⟨hi, fun hle => hsel ?_⟩
      rw [(hexact L _ ((under_self L _).parent (bits_lt ho))).augval]
      exact (le_minBelow.mp le_rfl i hi hio).trans hle
    · exact Selection.le_leastOf (fun i hi => hleast i (Finset.mem_range.mpr hi)) fun i hi =>
        hlow i hi L _ (under_self L _)
    · rw [← hcount]
      exact (Finset.sum_eq_multiset_sum (Finset.range offsets.length) counts).symm
    · rw [hmem]
      refine and_congr_right fun hx => and_congr_right fun hle => ⟨?_, fun hxw => ?_⟩
      · rintro ⟨i, hi, hxi⟩
        have ho := hsel.lt (Finset.mem_range.mp hi)
        rw [div_pow_succ, hxi]
        change (64 * w + offsets.getD i 0) / 64 = w
        omega
      · obtain ⟨i, hi, hio⟩ := hsel.exists_child hexact hx hxw hle
        exact ⟨i, Finset.mem_range.mpr hi, hio⟩

/-- The number of layers of an exact map. -/
theorem Exact.layers {m : IndexMap T} (h : Exact n sequence S m) : m.layers - 1 = numLayers n - 1 :=
  congrArg (fun k => k - 1) h.flag.size

/-- An exact map is empty if it tracks nothing. -/
theorem Exact.empty_iff {m : IndexMap T} (h : Exact n sequence S m) : m.empty = true ↔ S = ∅ := by
  rw [empty, decide_eq_true_eq, h.layers, h.flag.root_eq_zero]

/-- An extraction below the root leaves an exact map. -/
theorem Exact.of_changed {m m' : IndexMap T} (h : Exact n sequence S m) (hsub : S' ⊆ S)
    (hnodes : ∀ K v, Under (numLayers n - 1) 0 K v → ExactNode sequence S' m' K v)
    (hchanged : ChangedBelow n (numLayers n - 1) 0 m m') (hdirty : m'.dirty = m.dirty) :
    Exact n sequence S' m' := by
  refine exact_of_nodes hchanged.allocated (fun i hi => h.flag.lt (hsub hi)) (fun K hK v => ?_) fun K hK v => ?_
  · by_cases hu : Under (numLayers n - 1) 0 K v
    · exact hnodes K v hu
    · refine ((h.node hK v).congr (fun i hiv => ⟨fun hi => hsub hi, fun hi => ?_⟩) fun _ _ _ => rfl).of_node
        (hchanged.same K v hu)
      exact absurd (under_root hK (h.flag.lt hi) hiv) hu
  · rw [hdirty]
    by_contra hne
    obtain ⟨i, hi, _⟩ := (h.dirty.load_ne_zero hK v).mp hne
    exact Finset.notMem_empty i hi

/-- An extraction passes the elements up to the threshold to the function, each once, and returns their
number; the map is exact for the others. -/
theorem extractMin_spec (threshold : T) {m : IndexMap T} (h : Exact n sequence S m) :
    Exact n sequence (above sequence threshold S) (extractMin schedule sequence threshold m).2.1 ∧
      (extractMin schedule sequence threshold m).2.2.Nodup ∧
      (∀ i, i ∈ (extractMin schedule sequence threshold m).2.2 ↔ i ∈ S ∧ sequence i ≤ threshold) ∧
      (extractMin schedule sequence threshold m).1 = (extractMin schedule sequence threshold m).2.2.length := by
  have hpos := numLayers_pos n
  unfold extractMin
  by_cases hS : S = ∅
  · rw [if_pos (h.empty_iff.mpr hS)]
    subst hS
    exact ⟨h, List.nodup_nil, by simp, rfl⟩
  · rw [if_neg fun hc => hS (h.empty_iff.mp hc), h.layers]
    obtain ⟨i, hi⟩ := Finset.nonempty_iff_ne_empty.mpr hS
    have hin : InBounds n (numLayers n - 1) 0 :=
      ⟨by omega, i, h.flag.lt hi, by rw [Nat.sub_add_cancel hpos]; exact div_numLayers (h.flag.lt hi)⟩
    have hr := extractMinAt_spec schedule (fun i hi => h.flag.lt hi) threshold [] hin h.allocated
      fun K v hu => h.node (by have := hu.1; omega) v
    rw [zero_mul] at hr
    obtain ⟨new, hnew, hnodup, hcount, hmem⟩ := hr.calls
    rw [List.nil_append] at hnew
    rw [hnew]
    refine ⟨h.of_changed (Finset.filter_subset _ _) hr.nodes hr.changed hr.dirty, hnodup, fun j => ?_, hcount⟩
    rw [hmem, Nat.sub_add_cancel hpos]
    exact and_congr_right fun hj => and_iff_left (div_numLayers (h.flag.lt hj))

end IndexMap

end ToggleTree
