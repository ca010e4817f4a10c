import ToggleTree.IndexMap.Extract
import ToggleTree.IndexMap.Run
import ToggleTree.IndexMap.Traversing

/-!
# Extractions that lower and insert

The function that an extraction calls may lower values and insert their indices. Every node is
computed from values its indices have had since the extraction started, so that it is exact for
values that are too large at inserted indices only, and these are what the next repair looks at.
-/

namespace ToggleTree

open ForkJoin ForkJoin.Prog

namespace IndexMap

open IndexSet

namespace Concurrent

open Shared

section Nodes

/-- The nodes at or below a node. -/
def nodesUnder : ℕ → ℕ → Finset (ℕ × ℕ)
  | 0, w => {(0, w)}
  | L + 1, w => {(L + 1, w)} ∪ (Finset.range 64).biUnion fun o => nodesUnder L (64 * w + o)

/-- The nodes below a node. -/
theorem mem_nodesUnder {L w K v : ℕ} : (K, v) ∈ nodesUnder L w ↔ Under L w K v := by
  induction L generalizing w with
  | zero =>
    rw [nodesUnder, Finset.mem_singleton, Prod.mk.injEq]
    constructor
    · rintro ⟨rfl, rfl⟩
      exact under_self 0 v
    · intro h
      obtain rfl : K = 0 := Nat.le_zero.mp h.1
      exact ⟨rfl, by simpa using h.2⟩
  | succ L ih =>
    rw [nodesUnder, Finset.mem_union, Finset.mem_singleton, Prod.mk.injEq, Finset.mem_biUnion]
    constructor
    · rintro (⟨rfl, rfl⟩ | ⟨o, ho, hu⟩)
      · exact under_self _ _
      · exact (ih.mp hu).parent (Finset.mem_range.mp ho)
    · intro h
      rcases h.cases with h | ⟨o, ho, hu⟩
      · exact Or.inl h
      · exact Or.inr ⟨o, Finset.mem_range.mpr ho, ih.mpr hu⟩

/-- Different nodes of a layer have no node below them in common. -/
theorem disjoint_nodesUnder {L w w' : ℕ} (hne : w ≠ w') : Disjoint (nodesUnder L w) (nodesUnder L w') := by
  rw [Finset.disjoint_left]
  rintro ⟨K, v⟩ h h'
  exact hne ((mem_nodesUnder.mp h).unique (mem_nodesUnder.mp h'))

/-- The nodes below a child. -/
theorem nodesUnder_subset {L w o : ℕ} (ho : o < 64) : nodesUnder L (64 * w + o) ⊆ nodesUnder (L + 1) w := by
  rintro ⟨K, v⟩ h
  exact mem_nodesUnder.mpr ((mem_nodesUnder.mp h).parent ho)

end Nodes

variable {T υ ι : Type} [LinearOrder T] [OrderTop T] {env : ι → Prog (Shared T υ) ι Unit} {n : ℕ} {threshold : T}
  {before : ℕ → T} {S : Finset ℕ} {f : ℕ → Prog (Shared T υ) ι Unit}

/-- What an extraction at or below a node has done: the calls it has made, the nodes, and the values
that the nodes have been made from. -/
structure ExtractedUnder (before : ℕ → T) (S : Finset ℕ) (threshold : T) (L w : ℕ) (m : IndexMap T)
    (made : Multiset ℕ) (old : ℕ → T) : Prop where
  nodup : made.Nodup
  mem : ∀ i ∈ made, i ∈ S ∧ i / 64 ^ (L + 1) = w
  forced : ∀ i ∈ S, i / 64 ^ (L + 1) = w → before i ≤ threshold → i ∈ made
  nodes : ∀ K v, Under L w K v → ExactNode old (S \ made.toFinset) m K v

/-- The result of an extraction at a node. -/
def ExtractResult (before : ℕ → T) (S : Finset ℕ) (threshold : T) (L w : ℕ) (count : ℕ) (st : Shared T υ)
    (a : Tokens T) : Prop :=
  ∃ m made old, ExtractedUnder before S threshold L w m made old ∧ (∀ i, Between before st i (old i)) ∧
    count = made.card ∧ a = (cells (cellOf m) (nodesUnder L w), made, 0, 0, 0)

section Leaf

/-- The loop over the flags of a leaf, once it has dealt with `offsets`. -/
structure LeafInv (before : ℕ → T) (threshold : T) (w : ℕ) (offsets : List ℕ) (r : Extracted T)
    (made : Multiset ℕ) (old : ℕ → T) : Prop where
  nodup : made.Nodup
  mem : ∀ i ∈ made, ∃ o ∈ offsets, i = 64 * w + o
  forced : ∀ o ∈ offsets, before (64 * w + o) ≤ threshold → 64 * w + o ∈ made
  scanned : Scanned offsets (fun o => 64 * w + o ∈ made) (fun o => old (64 * w + o)) r.newWord r.aggregate
  count : r.count = made.card

namespace LeafInv

variable {w o : ℕ} {offsets : List ℕ} {r : Extracted T} {made : Multiset ℕ} {old : ℕ → T}

omit [OrderTop T] in
/-- A vertex whose flag has not been looked at has not been passed on. -/
theorem notMem (h : LeafInv before threshold w offsets r made old) (ho : o ∉ offsets) : 64 * w + o ∉ made := by
  intro hmem
  obtain ⟨p, hp, heq⟩ := h.mem _ hmem
  exact ho ((Nat.add_left_cancel heq) ▸ hp)

omit [OrderTop T] in
/-- The vertex of the next flag has been passed to the function. -/
theorem call (h : LeafInv before threshold w offsets r made old) (ho : o ∉ offsets) :
    LeafInv before threshold w (offsets ++ [o]) { r with count := r.count + 1 } ({64 * w + o} + made) old where
  nodup := by
    rw [Multiset.singleton_add, Multiset.nodup_cons]
    exact ⟨h.notMem ho, h.nodup⟩
  mem i hi := by
    rcases Multiset.mem_add.mp hi with hi | hi
    · exact ⟨o, by simp, Multiset.mem_singleton.mp hi⟩
    · obtain ⟨p, hp, heq⟩ := h.mem i hi
      exact ⟨p, List.mem_append_left _ hp, heq⟩
  forced p hp hle := by
    rcases List.mem_append.mp hp with hp | hp
    · exact Multiset.mem_add.mpr (Or.inr (h.forced p hp hle))
    · rw [List.mem_singleton.mp hp]
      exact Multiset.mem_add.mpr (Or.inl (Multiset.mem_singleton_self _))
  scanned := by
    refine (h.scanned.congr (fun p hp => ?_) fun _ _ _ => rfl).skip ?_
    · have hne : 64 * w + p ≠ 64 * w + o := fun heq => ho ((Nat.add_left_cancel heq) ▸ hp)
      rw [Multiset.mem_add, Multiset.mem_singleton, or_iff_right hne]
    · exact Multiset.mem_add.mpr (Or.inl (Multiset.mem_singleton_self _))
  count := by
    rw [Multiset.card_add, Multiset.card_singleton, ← h.count, add_comm]

omit [OrderTop T] in
/-- The vertex of the next flag stays, with the value `x`. -/
theorem keep (h : LeafInv before threshold w offsets r made old) (ho : o ∉ offsets) (hlt : o < 64) {x : T}
    (hx : ¬before (64 * w + o) ≤ threshold) :
    LeafInv before threshold w (offsets ++ [o])
      { r with aggregate := min r.aggregate x, newWord := r.newWord ||| wordOffset 0 (64 * w + o) } made
      (Function.update old (64 * w + o) x) where
  nodup := h.nodup
  mem i hi := by
    obtain ⟨p, hp, heq⟩ := h.mem i hi
    exact ⟨p, List.mem_append_left _ hp, heq⟩
  forced p hp hle := by
    rcases List.mem_append.mp hp with hp | hp
    · exact h.forced p hp hle
    · rw [List.mem_singleton.mp hp] at hle
      exact absurd hle hx
  scanned := by
    have hoffset : wordOffset 0 (64 * w + o) = ToggleTree.flag o := by
      simpa using wordOffset_child (L := 0) (w := w) hlt
    have hkept : Scanned offsets (fun p => 64 * w + p ∈ made)
        (fun p => Function.update old (64 * w + o) x (64 * w + p)) r.newWord r.aggregate := by
      refine h.scanned.congr (fun _ _ => Iff.rfl) fun p hp _ => ?_
      exact Function.update_of_ne (fun heq => ho ((Nat.add_left_cancel heq : p = o) ▸ hp)) _ _
    have hnext := hkept.keep (h.notMem ho) hlt
    rw [Function.update_self] at hnext
    rw [hoffset]
    exact hnext
  count := h.count

end LeafInv

/-- The loop over the flags of a leaf calls the function on every vertex whose value was low enough
before the extraction. -/
theorem extractLeaf_traversing (hf : ∀ i < n, Lowering n 0 (f i)) {w : ℕ} {word : Word}
    (hword : ∀ o ∈ bits word, 64 * w + o < n) (st : Shared T υ) :
    Ensures (traversing n threshold before) env
      (fun r st' a => ∃ made old, LeafInv before threshold w (bits word) r made old ∧
        (∀ i, Between before st' i (old i)) ∧ a = (0, made, 0, 0, 0))
      (extractLeaf values threshold (visitor f) (w * 64 ^ (0 + 1)) word) st 0 := by
  refine Ensures.use_inv fun st' o _ hinv => ?_
  have hle : ∀ i, Between before st' i (before i) := fun i => ⟨Traversing.le hinv i, le_rfl⟩
  let I (k : ℕ) (r : Extracted T) (st : Shared T υ) (a : Tokens T) : Prop :=
    ∃ made old, LeafInv before threshold w ((bits word).take k) r made old ∧
      (∀ i, Between before st i (old i)) ∧ a = (0, made, 0, 0, 0)
  have hstart : I 0 ⟨0, ⊤, 0⟩ st' 0 := by
    refine ⟨0, before, ⟨Multiset.nodup_zero, fun i hi => by simp at hi, fun o ho => by simp at ho, ?_,
      rfl⟩, hle, rfl⟩
    exact Scanned.start
  have hloop : Ensures (traversing n threshold before) env (I (popCount word))
      (extractLeaf values threshold (visitor f) (w * 64 ^ (0 + 1)) word) st' 0 := by
    unfold extractLeaf
    refine Ensures.foldFor (Nat.zero_le _) ?_ hstart ?_
    · rintro r s s' a hrel ⟨made, old, hleaf, hbetween, rfl⟩
      exact ⟨made, old, hleaf, fun i => (hbetween i).rel hrel, rfl⟩
    · rintro k r s _ _ hk ⟨made, old, hleaf, hbetween, rfl⟩
      rw [popCount_eq_length] at hk
      have hoffset : popOffset k word = (bits word)[k] := by
        rw [popOffset_eq_getD, List.getD_eq_getElem _ _ hk]
      have htake : (bits word).take (k + 1) = (bits word).take k ++ [popOffset k word] := by
        rw [List.take_succ_eq_append_getElem hk, hoffset]
      have hfresh : popOffset k word ∉ (bits word).take k := by
        have hnodup := (bits_nodup word).sublist (List.take_sublist (k + 1) _)
        rw [htake, List.nodup_append] at hnodup
        exact fun hmem => hnodup.2.2 _ hmem _ (List.mem_singleton_self _) rfl
      have hmem : popOffset k word ∈ bits word := by
        rw [hoffset]
        exact List.getElem_mem hk
      have hlt := bits_lt hmem
      have hvertex := hword _ hmem
      have hkeep (s s' : Shared T υ) (hrel : (traversing n threshold before).rel s s')
          (h : ∀ i, Between before s i (old i)) (i : ℕ) : Between before s' i (old i) := (h i).rel hrel
      dsimp only
      rw [leaf_index]
      generalize popOffset k word = o at htake hfresh hlt hvertex
      refine ((readEntry_traversing (64 * w + o) s).carry hkeep hbetween (0, made, 0, 0, 0)).bind ?_
      rintro x s₁ _ ⟨_, ⟨⟨hx, rfl⟩, hold⟩, rfl⟩
      rw [zero_add]
      split
      · next hxle =>
        refine ((visitor_traversing (hf _ hvertex) hx hxle).carry hkeep hold (0, made, 0, 0, 0)).bind ?_
        rintro _ s₂ _ ⟨_, ⟨rfl, hold'⟩, rfl⟩
        refine Ensures.ret fun s₃ _ hrel hinv' =>
          ⟨_, hinv', {64 * w + o} + made, old, ?_, hkeep _ _ hrel hold', ?_⟩
        · rw [htake]
          exact hleaf.call hfresh
        · simp
      · next hxle =>
        refine ((minEntry_traversing r.aggregate (64 * w + o) s₁).carry hkeep hold (0, made, 0, 0, 0)).bind ?_
        rintro _ s₂ _ ⟨_, ⟨⟨⟨y, hy, rfl⟩, rfl⟩, hold'⟩, rfl⟩
        refine Ensures.ret fun s₃ _ hrel hinv' =>
          ⟨_, hinv', made, Function.update old (64 * w + o) y, ?_, fun i => ?_, zero_add _⟩
        · rw [htake]
          exact hleaf.keep hfresh hlt fun hle' => hxle (hx.2.trans hle')
        · by_cases hi : i = 64 * w + o
          · rw [hi, Function.update_self]
            exact hy.rel hrel
          · rw [Function.update_of_ne hi]
            exact hkeep _ _ hrel hold' i
  refine hloop.mono ?_
  rintro r s _ ⟨made, old, hleaf, hbetween, rfl⟩
  rw [popCount_eq_length, List.take_length] at hleaf
  exact ⟨made, old, hleaf, hbetween, rfl⟩

/-- A leaf whose calls have been made. -/
theorem LeafInv.extracted {m : IndexMap T} {w : ℕ} {r : Extracted T} {made : Multiset ℕ} {old : ℕ → T}
    (h : LeafInv before threshold w (bits (m.flag.load 0 w)) r made old) (hexact : ExactNode before S m 0 w)
    (hwidth : w < m.flag.width 0) :
    ExtractedUnder before S threshold 0 w ((m.setFlag 0 w r.newWord).setAugval 0 w r.aggregate) made old where
  nodup := h.nodup
  mem i hi := by
    obtain ⟨o, ho, rfl⟩ := h.mem i hi
    obtain ⟨hlt, j, hj, hjo⟩ := (hexact.flag o).mp ho
    rw [pow_zero, Nat.div_one] at hjo
    exact ⟨hjo ▸ hj, by omega⟩
  forced i hi hiw hle := by
    have hio : 64 * w + i % 64 = i := by omega
    have ho : i % 64 ∈ bits (m.flag.load 0 w) :=
      (hexact.flag _).mpr ⟨by omega, i, hi, by rw [pow_zero, Nat.div_one, hio]⟩
    rw [← hio]
    exact h.forced _ ho (by rwa [hio])
  nodes K v hu := by
    obtain rfl : K = 0 := Nat.le_zero.mp hu.1
    obtain rfl : v = w := by simpa using hu.2
    refine exactNode_leaf hexact.flag h.scanned (fun o _ => ?_) ?_ ?_
    · rw [Finset.mem_sdiff, Multiset.mem_toFinset]
    · exact (load_store _ _ _ _ hwidth _ _).trans (if_pos ⟨rfl, rfl⟩)
    · exact if_pos ⟨rfl, rfl⟩

end Leaf

section Inner

variable {m : IndexMap T} {s : Finset (ℕ × ℕ)} {L w : ℕ}
  {rest : Multiset ℕ × Multiset ℕ × Multiset ℕ × Multiset (ℕ × ℕ)}

/-- The first loop of an inner node reads least values that nobody else writes. -/
theorem selectChildren_traversing {word : Word} (hmem : ∀ o ∈ bits word, (L, 64 * w + o) ∈ s) (st : Shared T υ) :
    Ensures (traversing n threshold before) env
      (fun r _ a => r = scanNode threshold L (w * 64 ^ (L + 1 + 1)) word m ∧ a = (cells (cellOf m) s, rest))
      (selectChildren nodes threshold L (w * 64 ^ (L + 1 + 1)) word) st (cells (cellOf m) s, rest) := by
  let step (r : NodeScan T) (i : ℕ) : NodeScan T :=
    let offset := popOffset i word
    let childIndex := w * 64 ^ (L + 1 + 1) + offsetIndex (L + 1) offset
    let childAugval := m.augval L (wordId L childIndex)
    if childAugval ≤ threshold then { r with childIndices := r.childIndices ++ [childIndex] }
    else { r with newWord := r.newWord ||| ToggleTree.flag offset, aggregate := min r.aggregate childAugval }
  let I (k : ℕ) (r : NodeScan T) (_ : Shared T υ) (a : Tokens T) : Prop :=
    r = (List.range k).foldl step ⟨0, ⊤, []⟩ ∧ a = (cells (cellOf m) s, rest)
  have hloop : Ensures (traversing n threshold before) env (I (popCount word))
      (selectChildren nodes threshold L (w * 64 ^ (L + 1 + 1)) word) st (cells (cellOf m) s, rest) := by
    unfold selectChildren
    refine Ensures.foldFor (Nat.zero_le _) (fun _ _ _ _ _ h => h) ⟨rfl, rfl⟩ ?_
    rintro i r st' _ _ hi ⟨rfl, rfl⟩
    have hchild : (L, wordId L (w * 64 ^ (L + 1 + 1) + offsetIndex (L + 1) (popOffset i word))) ∈ s := by
      rw [child_index, wordId_node]
      exact hmem _ (popOffset_mem_bits hi)
    refine (readAugval_traversing hchild st').bind ?_
    rintro x st'' _ ⟨rfl, rfl⟩
    have hnext : (List.range (i + 1)).foldl step ⟨0, ⊤, []⟩ = step ((List.range i).foldl step ⟨0, ⊤, []⟩) i := by
      rw [List.range_succ, List.foldl_append]
      rfl
    split
    · next hle =>
      refine Ensures.ret fun _ _ _ hinv => ⟨_, hinv, ?_, rfl⟩
      rw [hnext]
      exact (if_pos hle).symm
    · next hle =>
      refine Ensures.ret fun _ _ _ hinv => ⟨_, hinv, ?_, rfl⟩
      rw [hnext]
      exact (if_neg hle).symm
  exact hloop

/-- The last loop of an inner node reads flags that nobody else writes. -/
theorem gatherChildren_traversing {scan : NodeScan T} {results : List (ℕ × T)}
    (hmem : ∀ i < scan.childIndices.length, (L, wordId L (scan.childIndices.getD i 0)) ∈ s) (st : Shared T υ) :
    Ensures (traversing n threshold before) env
      (fun r _ a => r.newWord = (List.range scan.childIndices.length).foldl (fun newWord i =>
            if m.flag.load L (wordId L (scan.childIndices.getD i 0)) ≠ 0 then
              newWord ||| wordOffset (L + 1) (scan.childIndices.getD i 0) else newWord) scan.newWord ∧
          r.aggregate = leastOf scan.aggregate (List.range scan.childIndices.length)
            (fun i => (results.getD i (0, ⊤)).2) ∧
          r.count = ∑ i ∈ Finset.range scan.childIndices.length, (results.getD i (0, ⊤)).1 ∧
          a = (cells (cellOf m) s, rest))
      (gatherChildren nodes L scan results) st (cells (cellOf m) s, rest) := by
  unfold gatherChildren
  let I (k : ℕ) (r : Extracted T) (_ : Shared T υ) (a : Tokens T) : Prop :=
    r.newWord = (List.range k).foldl (fun newWord i =>
        if m.flag.load L (wordId L (scan.childIndices.getD i 0)) ≠ 0 then
          newWord ||| wordOffset (L + 1) (scan.childIndices.getD i 0) else newWord) scan.newWord ∧
      r.aggregate = leastOf scan.aggregate (List.range k) (fun i => (results.getD i (0, ⊤)).2) ∧
      r.count = ∑ i ∈ Finset.range k, (results.getD i (0, ⊤)).1 ∧ a = (cells (cellOf m) s, rest)
  refine Ensures.foldFor (I := I) (Nat.zero_le _) (fun _ _ _ _ _ h => h) ⟨rfl, rfl, rfl, rfl⟩ ?_
  rintro i r st' _ _ hi ⟨hword, haggregate, hcount, rfl⟩
  refine (readFlag_traversing (hmem i hi) st').bind ?_
  rintro x st'' _ ⟨rfl, rfl⟩
  refine Ensures.ret fun _ _ _ hinv => ⟨_, hinv, ?_, ?_, ?_, rfl⟩
  · rw [List.range_succ, List.foldl_append, ← hword]
    rfl
  · dsimp only
    rw [haggregate, leastOf, leastOf, List.range_succ, List.foldl_append]
    rfl
  · rw [Finset.sum_range_succ, ← hcount]

omit [LinearOrder T] [OrderTop T] in
/-- A sum over the children of what is owned. -/
theorem sum_tokens {κ : Type} (I : Finset κ) (c : κ → Multiset ((ℕ × ℕ) × Word × T)) (d : κ → Multiset ℕ) :
    ∑ i ∈ I, ((c i, d i, 0, 0, 0) : Tokens T) = (∑ i ∈ I, c i, ∑ i ∈ I, d i, 0, 0, 0) := by
  classical
  induction I using Finset.induction_on with
  | empty => rfl
  | insert i I hi ih =>
    rw [Finset.sum_insert hi, Finset.sum_insert hi, Finset.sum_insert hi, ih]
    simp

/-- A node with the same cell stays exact. -/
theorem exactNode_of_cell {sequence : ℕ → T} {m m' : IndexMap T} {K v : ℕ} (h : ExactNode sequence S m K v)
    (hcell : cellOf m' (K, v) = cellOf m (K, v)) : ExactNode sequence S m' K v := by
  have hflag : m'.flag.load K v = m.flag.load K v := congrArg Prod.fst hcell
  have haugval : m'.augval K v = m.augval K v := congrArg Prod.snd hcell
  exact ⟨by rw [hflag]; exact h.flag, haugval.trans h.augval⟩

/-- What the extractions below the selected children of a node have done together. -/
structure Gathered (before : ℕ → T) (S : Finset ℕ) (threshold : T) (L k : ℕ) (child : ℕ → ℕ)
    (maps : ℕ → IndexMap T) (made : ℕ → Multiset ℕ) (olds : ℕ → ℕ → T) : Prop where
  injective : ∀ i < k, ∀ j < k, child i = child j → i = j
  each : ∀ i < k, ExtractedUnder before S threshold L (child i) (maps i) (made i) (olds i)

namespace Gathered

variable {k : ℕ} {child : ℕ → ℕ} {maps : ℕ → IndexMap T} {made : ℕ → Multiset ℕ} {olds : ℕ → ℕ → T}

/-- The values that the nodes below the selected children have been made from. -/
def old (before : ℕ → T) (L k : ℕ) (child : ℕ → ℕ) (olds : ℕ → ℕ → T) (x : ℕ) : T :=
  if h : ∃ i < k, x / 64 ^ (L + 1) = child i then olds (Nat.find h) x else before x

variable (h : Gathered before S threshold L k child maps made olds)
include h

/-- The values of the whole at an index of a child. -/
theorem old_eq {i x : ℕ} (hi : i < k) (hx : x / 64 ^ (L + 1) = child i) :
    old before L k child olds x = olds i x := by
  have hex : ∃ i < k, x / 64 ^ (L + 1) = child i := ⟨i, hi, hx⟩
  have hfound := Nat.find_spec hex
  rw [old, dif_pos hex, h.injective _ hfound.1 i hi (hfound.2.symm.trans hx)]

omit h [OrderTop T] in
/-- Every value that a node has been made from is one that its entry has had. -/
theorem between {st : Shared T υ} (hle : ∀ i, st.sequence i ≤ before i)
    (hbetween : ∀ i < k, ∀ x, Between before st x (olds i x)) (x : ℕ) :
    Between before st x (old before L k child olds x) := by
  unfold old
  split
  · next hex => exact hbetween _ (Nat.find_spec hex).1 x
  · exact ⟨hle x, le_rfl⟩

/-- The vertices of the whole at an index of a child. -/
theorem mem_sum {i x : ℕ} (hi : i < k) (hx : x / 64 ^ (L + 1) = child i) :
    x ∈ ∑ j ∈ Finset.range k, made j ↔ x ∈ made i := by
  rw [Multiset.mem_sum]
  constructor
  · rintro ⟨j, hj, hxj⟩
    have hj' := Finset.mem_range.mp hj
    rwa [h.injective i hi j hj' (hx.symm.trans ((h.each j hj').mem x hxj).2)]
  · exact fun hxi => ⟨i, Finset.mem_range.mpr hi, hxi⟩

/-- No vertex has been passed on twice. -/
theorem nodup_sum : (∑ j ∈ Finset.range k, made j).Nodup := by
  refine Multiset.nodup_iff_count_le_one.mpr fun x => ?_
  rw [Multiset.count_sum']
  by_cases hex : ∃ i < k, x ∈ made i
  · obtain ⟨i, hi, hxi⟩ := hex
    have hothers : ∀ j ∈ Finset.range k, j ≠ i → (made j).count x = 0 := by
      intro j hj hji
      refine Multiset.count_eq_zero_of_notMem fun hxj => hji ?_
      have hj' := Finset.mem_range.mp hj
      exact h.injective j hj' i hi (((h.each j hj').mem x hxj).2.symm.trans ((h.each i hi).mem x hxi).2)
    rw [Finset.sum_eq_single_of_mem i (Finset.mem_range.mpr hi) hothers]
    exact Multiset.nodup_iff_count_le_one.mp (h.each i hi).nodup x
  · rw [Finset.sum_eq_zero fun i hi => Multiset.count_eq_zero_of_notMem fun hxi =>
      hex ⟨i, Finset.mem_range.mp hi, hxi⟩]
    exact Nat.zero_le 1

/-- The nodes below a selected child are exact for all the calls together. -/
theorem node {m : IndexMap T} {i K v : ℕ} (hi : i < k) (hu : Under L (child i) K v)
    (hcell : cellOf m (K, v) = cellOf (maps i) (K, v)) :
    ExactNode (old before L k child olds) (S \ (∑ j ∈ Finset.range k, made j).toFinset) m K v := by
  refine exactNode_of_cell (((h.each i hi).nodes K v hu).congr (fun x hx => ?_) fun x _ hx =>
    h.old_eq hi (hu.div hx)) hcell
  rw [Finset.mem_sdiff, Finset.mem_sdiff, Multiset.mem_toFinset, Multiset.mem_toFinset, h.mem_sum hi (hu.div hx)]

end Gathered

/-- An inner node whose selected children have been worked on. -/
theorem Gathered.extracted {maps : ℕ → IndexMap T} {made : ℕ → Multiset ℕ} {olds : ℕ → ℕ → T}
    {m m' : IndexMap T} {offsets : List ℕ} {kept newWord : Word} {least aggregate : T}
    (h : Gathered before S threshold L offsets.length (fun i => 64 * w + offsets.getD i 0) maps made olds)
    (hexact : ∀ K v, Under (L + 1) w K v → ExactNode before S m K v)
    (hin : InBounds n (L + 1) w) (halloc : Allocated n m')
    (hsel : Selection (m.flag.load (L + 1) w) (fun o => m.augval L (64 * w + o) ≤ threshold) offsets)
    (hscan : Scanned (bits (m.flag.load (L + 1) w)) (fun o => m.augval L (64 * w + o) ≤ threshold)
      (fun o => m.augval L (64 * w + o)) kept least)
    (hcell : ∀ i < offsets.length, ∀ K v, Under L (64 * w + offsets.getD i 0) K v →
      cellOf m' (K, v) = cellOf (maps i) (K, v))
    (hrest : ∀ o, o < 64 → o ∉ offsets → ∀ K v, Under L (64 * w + o) K v → m'.node K v = m.node K v)
    (hnew : ∀ o, o ∈ bits newWord ↔ o ∈ bits kept ∨ o ∈ offsets ∧ m'.flag.load L (64 * w + o) ≠ 0)
    (hagg : ∀ t, t ≤ aggregate ↔
      t ≤ least ∧ ∀ o ∈ offsets, m'.flag.load L (64 * w + o) ≠ 0 → t ≤ m'.augval L (64 * w + o)) :
    ExtractedUnder before S threshold (L + 1) w ((m'.setFlag (L + 1) w newWord).setAugval (L + 1) w aggregate)
      (∑ i ∈ Finset.range offsets.length, made i)
      (Gathered.old before L offsets.length (fun i => 64 * w + offsets.getD i 0) olds) := by
  refine ⟨h.nodup_sum, fun x hx => ?_, fun x hx hxw hle => ?_, ?_⟩
  · obtain ⟨i, hi, hxi⟩ := Multiset.mem_sum.mp hx
    have hi' := Finset.mem_range.mp hi
    obtain ⟨hxS, hxc⟩ := (h.each i hi').mem x hxi
    have ho := hsel.lt hi'
    exact ⟨hxS, by rw [div_pow_succ, hxc]; omega⟩
  · obtain ⟨i, hi, hxc⟩ := hsel.exists_child hexact hx hxw hle
    exact (h.mem_sum hi hxc).mpr ((h.each i hi).forced x hx hxc hle)
  · refine nodes_of_selected hin halloc Finset.sdiff_subset hexact hsel.mem (fun o ho K v hu => ?_) hrest
      (fun o hlt ho x _ hxo => ?_) (fun o ho hstays x hx hxo => ?_) hscan hnew hagg
    · obtain ⟨i, hi, rfl⟩ := exists_getD ho
      exact h.node hi hu (hcell i hi K v hu)
    · refine dif_neg ?_
      rintro ⟨i, hi, hxi⟩
      have heq : o = offsets.getD i 0 := Nat.add_left_cancel (hxo.symm.trans hxi)
      exact ho (heq ▸ getD_mem hi)
    · refine Finset.mem_sdiff.mpr ⟨hx, fun hmade => hstays ?_⟩
      obtain ⟨i, hi, hxi⟩ := Multiset.mem_sum.mp (Multiset.mem_toFinset.mp hmade)
      have hi' := Finset.mem_range.mp hi
      have heq : o = offsets.getD i 0 := Nat.add_left_cancel (hxo.symm.trans ((h.each i hi').mem x hxi).2)
      rw [heq]
      exact ((hsel.mem _).mp (getD_mem hi')).2

end Inner

section Extraction

variable {m : IndexMap T}

/-- A value between the old and the new one stays so. -/
theorem between_rel {st st' : Shared T υ} {old : ℕ → T} (hrel : (traversing n threshold before).rel st st')
    (h : ∀ i, Between before st i (old i)) (i : ℕ) : Between before st' i (old i) := (h i).rel hrel

/-- Writing the node after its calls have been made. -/
theorem writeNode_traversing {L w count : ℕ} {r : Extracted T} {made : Multiset ℕ} {old : ℕ → T} {st : Shared T υ}
    (hin : InBounds n L w) (hwidth : m.flag.width L = layerLength n (L + 1))
    (hextracted : ExtractedUnder before S threshold L w
      ((m.setFlag L w r.newWord).setAugval L w r.aggregate) made old)
    (hbetween : ∀ i, Between before st i (old i)) (hcount : count = made.card) :
    Ensures (traversing n threshold before) env (ExtractResult before S threshold L w)
      (do
        atomicWrite (flagAt nodes L w) r.newWord
        atomicWrite (augvalAt nodes L w) r.aggregate
        return count) st (cells (cellOf m) (nodesUnder L w), made, 0, 0, 0) := by
  have hself : (L, w) ∈ nodesUnder L w := mem_nodesUnder.mpr (under_self L w)
  refine ((writeFlag_traversing hself hin hwidth r.newWord st).withStable
    (K := fun st => ∀ i, Between before st i (old i)) (fun _ _ => between_rel) hbetween).bind ?_
  rintro _ st₁ _ ⟨rfl, hbetween₁⟩
  refine ((writeAugval_traversing hself hin r.aggregate st₁).withStable
    (K := fun st => ∀ i, Between before st i (old i)) (fun _ _ => between_rel) hbetween₁).bind ?_
  rintro _ st₂ _ ⟨rfl, hbetween₂⟩
  exact Ensures.ret fun _ _ hrel hinv => ⟨_, hinv, _, made, old, hextracted,
    between_rel hrel hbetween₂, hcount, rfl⟩

/-- An extraction at a leaf of an exact map. -/
theorem extractMinAt_leaf_traversing (hf : ∀ i < n, Lowering n 0 (f i)) (h : Exact n before S m) {w : ℕ}
    (hin : InBounds n 0 w) (st : Shared T υ) :
    Ensures (traversing n threshold before) env (ExtractResult before S threshold 0 w)
      (extractMinAt nodes values threshold (visitor f) 0 (w * 64 ^ (0 + 1))) st
      (cells (cellOf m) (nodesUnder 0 w), 0, 0, 0, 0) := by
  unfold extractMinAt
  rw [wordId_node]
  refine (readFlag_traversing (mem_nodesUnder.mpr (under_self 0 w)) st).bind ?_
  rintro _ st₁ _ ⟨rfl, rfl⟩
  have hword (o : ℕ) (ho : o ∈ bits (m.flag.load 0 w)) : 64 * w + o < n := by
    obtain ⟨_, i, hi, hio⟩ := ((h.node hin.1 w).flag o).mp ho
    rw [pow_zero, Nat.div_one] at hio
    exact hio ▸ h.flag.lt hi
  have hcalls : Ensures (traversing n threshold before) env
      (fun r st' a => ∃ made old, LeafInv before threshold w (bits (m.flag.load 0 w)) r made old ∧
        (∀ i, Between before st' i (old i)) ∧ a = (0, made, 0, 0, 0))
      (extractLeaf values threshold (visitor f) (w * 64 ^ (0 + 1)) (m.flag.load 0 w)) st₁ 0 :=
    extractLeaf_traversing hf hword st₁
  have hleaf := hcalls.frame (cells (cellOf m) (nodesUnder 0 w), 0, 0, 0, 0)
  rw [zero_add] at hleaf
  refine hleaf.bind ?_
  rintro r st₂ _ ⟨_, ⟨made, old, hleaf, hbetween, rfl⟩, rfl⟩
  have hsum : ((0, made, 0, 0, 0) + (cells (cellOf m) (nodesUnder 0 w), 0, 0, 0, 0) : Tokens T) =
      (cells (cellOf m) (nodesUnder 0 w), made, 0, 0, 0) := by simp
  rw [hsum]
  have hwidth : m.flag.width 0 = layerLength n 1 := h.flag.width 0 hin.1
  exact writeNode_traversing hin hwidth (hleaf.extracted (h.node hin.1 w) (by rw [hwidth]; exact hin.lt)) hbetween
    hleaf.count

section Children

variable {L w : ℕ} {offsets : List ℕ}

/-- What an iteration over the selected children returns: the count and the least value of its child. -/
def ChildResult (before : ℕ → T) (S : Finset ℕ) (threshold : T) (L v : ℕ) (r : ℕ × T) (st : Shared T υ)
    (a : Tokens T) : Prop :=
  ∃ m made old, ExtractedUnder before S threshold L v m made old ∧ (∀ i, Between before st i (old i)) ∧
    r = (made.card, m.augval L v) ∧ a = (cells (cellOf m) (nodesUnder L v), made, 0, 0, 0)

/-- What a call below a child has found stays so. -/
theorem childResult_stable (v : ℕ) (r : ℕ × T) :
    Ensures.Stable (traversing n threshold before : Protocol (Shared T υ) (Tokens T))
      (ChildResult before S threshold L v r) := by
  rintro st st' a hrel ⟨m', made, old, hextracted, hbetween, hrest⟩
  exact ⟨m', made, old, hextracted, between_rel hrel hbetween, hrest⟩

/-- An iteration extracts below its child and then reads the child's least value. -/
theorem child_traversing {v : ℕ} {p : Prog (Shared T υ) ι ℕ} {st : Shared T υ} {a : Tokens T}
    (hp : Ensures (traversing n threshold before) env (ExtractResult before S threshold L v) p st a) :
    Ensures (traversing n threshold before) env (ChildResult before S threshold L v)
      (do
        let count ← p
        let aggregate ← atomicRead (augvalAt nodes L v)
        return (count, aggregate)) st a := by
  refine hp.bind ?_
  rintro _ st₁ _ ⟨m', made, old, hextracted, hbetween, rfl, rfl⟩
  refine ((readAugval_traversing (mem_nodesUnder.mpr (under_self L _)) st₁).withStable
    (K := fun st => ∀ x, Between before st x (old x)) (fun _ _ => between_rel) hbetween).bind ?_
  rintro _ st₂ _ ⟨⟨rfl, rfl⟩, hbetween'⟩
  exact Ensures.ret fun _ _ hrel hinv => ⟨_, hinv, m', made, old, hextracted,
    between_rel hrel hbetween', rfl, rfl⟩

/-- The results of the iterations, put together. -/
theorem Gathered.of_results {k : ℕ} {child : ℕ → ℕ} {results : List (ℕ × T)} {c : ℕ → Tokens T} {st : Shared T υ}
    (hinj : ∀ i < k, ∀ j < k, child i = child j → i = j) (hlength : results.length = k)
    (hc : ∀ i r, results[i]? = some r → ChildResult before S threshold L (child i) r st (c i)) :
    ∃ maps made olds, Gathered before S threshold L k child maps made olds ∧
      (∀ i < k, ∀ x, Between before st x (olds i x)) ∧
      (∀ i < k, results.getD i (0, ⊤) = ((made i).card, (maps i).augval L (child i))) ∧
      ∑ i ∈ Finset.range k, c i =
        (∑ i ∈ Finset.range k, cells (cellOf (maps i)) (nodesUnder L (child i)), ∑ i ∈ Finset.range k,
          made i, 0, 0, 0) := by
  have hall (i : ℕ) : ∃ m' made old, i < k →
      ExtractedUnder before S threshold L (child i) m' made old ∧ (∀ x, Between before st x (old x)) ∧
      results.getD i (0, ⊤) = (made.card, m'.augval L (child i)) ∧
      c i = (cells (cellOf m') (nodesUnder L (child i)), made, 0, 0, 0) := by
    by_cases hi : i < k
    · have hi' : i < results.length := by omega
      obtain ⟨m', made, old, hR⟩ := hc i results[i] (List.getElem?_eq_getElem hi')
      rw [List.getD_eq_getElem _ _ hi']
      exact ⟨m', made, old, fun _ => hR⟩
    · exact ⟨st.map, 0, before, fun hi' => absurd hi' hi⟩
  choose maps made olds hall using hall
  refine ⟨maps, made, olds, ⟨hinj, fun i hi => (hall i hi).1⟩, fun i hi => (hall i hi).2.1,
    fun i hi => (hall i hi).2.2.1, ?_⟩
  rw [Finset.sum_congr rfl fun i hi => (hall i (Finset.mem_range.mp hi)).2.2.2, sum_tokens]

variable {word : Word} {selected : ℕ → Prop} (hsel : Selection word selected offsets)
include hsel

omit [LinearOrder T] [OrderTop T] in
/-- The nodes below the children are below the node. -/
theorem children_subset : ∀ i ∈ Finset.range offsets.length,
    nodesUnder L (64 * w + offsets.getD i 0) ⊆ nodesUnder (L + 1) w :=
  fun _ hi => nodesUnder_subset (hsel.lt (Finset.mem_range.mp hi))

omit [LinearOrder T] [OrderTop T] in
/-- The nodes below different children are different. -/
theorem children_disjoint : ∀ i ∈ Finset.range offsets.length, ∀ j ∈ Finset.range offsets.length, i ≠ j →
    Disjoint (nodesUnder L (64 * w + offsets.getD i 0)) (nodesUnder L (64 * w + offsets.getD j 0)) :=
  fun _ hi _ hj hij => disjoint_nodesUnder fun heq =>
    hij (hsel.injective w (Finset.mem_range.mp hi) (Finset.mem_range.mp hj) heq)

/-- The loop over the selected children hands each iteration the nodes below its child and keeps the others. -/
theorem children_traversing {results : ℕ → Prog (Shared T υ) ι (ℕ × T)} {st : Shared T υ}
    (hchild : ∀ i < offsets.length, Ensures (traversing n threshold before) env
      (ChildResult before S threshold L (64 * w + offsets.getD i 0)) (results i) st
      (cells (cellOf m) (nodesUnder L (64 * w + offsets.getD i 0)), 0, 0, 0, 0)) :
    Ensures (traversing n threshold before) env
      (fun r st a => ∃ maps made olds,
        Gathered before S threshold L offsets.length (fun i => 64 * w + offsets.getD i 0) maps made olds ∧
        (∀ i < offsets.length, ∀ x, Between before st x (olds i x)) ∧
        (∀ i < offsets.length,
          r.getD i (0, ⊤) = ((made i).card, (maps i).augval L (64 * w + offsets.getD i 0))) ∧
        a = (∑ i ∈ Finset.range offsets.length, cells (cellOf (maps i))
          (nodesUnder L (64 * w + offsets.getD i 0)) + cells (cellOf m) (nodesUnder (L + 1) w \
            (Finset.range offsets.length).biUnion fun i => nodesUnder L (64 * w + offsets.getD i 0)),
          ∑ i ∈ Finset.range offsets.length, made i, 0, 0, 0))
      (parallelCollect 0 offsets.length results) st (cells (cellOf m) (nodesUnder (L + 1) w), 0, 0, 0, 0) := by
  have hshare : ((cells (cellOf m) (nodesUnder (L + 1) w), 0, 0, 0, 0) : Tokens T) =
      ∑ i ∈ Finset.Ico 0 offsets.length,
        ((cells (cellOf m) (nodesUnder L (64 * w + offsets.getD i 0)), 0, 0, 0, 0) : Tokens T) +
        (cells (cellOf m) (nodesUnder (L + 1) w \
          (Finset.range offsets.length).biUnion fun i => nodesUnder L (64 * w + offsets.getD i 0)), 0,
            0, 0, 0) := by
    rw [← Finset.range_eq_Ico, sum_tokens, cells_split _ (children_subset hsel) (children_disjoint hsel)]
    simp
  rw [hshare]
  let R (i : ℕ) : ℕ × T → Shared T υ → Tokens T → Prop :=
    ChildResult before S threshold L (64 * w + offsets.getD i 0)
  have hstable (i : ℕ) (r : ℕ × T) : Ensures.Stable (traversing n threshold before) (R i r) :=
    childResult_stable _ r
  have hchild' (i : ℕ) (_ : 0 ≤ i) (hi : i < offsets.length) : Ensures (traversing n threshold before) env (R i)
      (results i) st (cells (cellOf m) (nodesUnder L (64 * w + offsets.getD i 0)), 0, 0, 0, 0) := hchild i hi
  have hloop := Ensures.parallelCollect_own
    (fun i => ((cells (cellOf m) (nodesUnder L (64 * w + offsets.getD i 0)), 0, 0, 0, 0) : Tokens T))
      hstable hchild'
  refine (hloop.frame _).mono ?_
  rintro r st' _ ⟨_, ⟨c, rfl, hlength, hc⟩, rfl⟩
  simp only [Nat.zero_add] at hc
  obtain ⟨maps, made, olds, hgathered, hbetween, hresults, hsum⟩ :=
    Gathered.of_results (fun i hi j hj => hsel.injective w hi hj) hlength hc
  refine ⟨maps, made, olds, hgathered, hbetween, hresults, ?_⟩
  rw [← Finset.range_eq_Ico, hsum]
  simp

end Children

/-- The end of an inner node, once the iterations over its selected children have returned: `m'` is what the nodes
hold then. -/
theorem gatherNode_traversing {L w : ℕ} {m' : IndexMap T} {offsets : List ℕ} {maps : ℕ → IndexMap T}
    {made : ℕ → Multiset ℕ} {olds : ℕ → ℕ → T} {scan : NodeScan T} {results : List (ℕ × T)} {st : Shared T υ}
    (hexact : ∀ K v, Under (L + 1) w K v → ExactNode before S m K v) (hin : InBounds n (L + 1) w)
    (halloc : Allocated n m')
    (hsel : Selection (m.flag.load (L + 1) w) (fun o => m.augval L (64 * w + o) ≤ threshold) offsets)
    (hscan : Scanned (bits (m.flag.load (L + 1) w)) (fun o => m.augval L (64 * w + o) ≤ threshold)
      (fun o => m.augval L (64 * w + o)) scan.newWord scan.aggregate)
    (hlength : scan.childIndices.length = offsets.length)
    (hindex : ∀ i < offsets.length, scan.childIndices.getD i 0 = (64 * w + offsets.getD i 0) * 64 ^ (L + 1))
    (h : Gathered before S threshold L offsets.length (fun i => 64 * w + offsets.getD i 0) maps made olds)
    (hbetween : ∀ i < offsets.length, ∀ x, Between before st x (olds i x)) (hle : ∀ i, st.sequence i ≤ before i)
    (hresults : ∀ i < offsets.length,
      results.getD i (0, ⊤) = ((made i).card, (maps i).augval L (64 * w + offsets.getD i 0)))
    (hcell : ∀ i < offsets.length, ∀ K v, Under L (64 * w + offsets.getD i 0) K v →
      cellOf m' (K, v) = cellOf (maps i) (K, v))
    (hrest : ∀ o, o < 64 → o ∉ offsets → ∀ K v, Under L (64 * w + o) K v → m'.node K v = m.node K v) :
    Ensures (traversing n threshold before) env (ExtractResult before S threshold (L + 1) w)
      (do
        let r ← gatherChildren nodes L scan results
        atomicWrite (flagAt nodes (L + 1) w) r.newWord
        atomicWrite (augvalAt nodes (L + 1) w) r.aggregate
        return r.count) st
      (cells (cellOf m') (nodesUnder (L + 1) w), ∑ i ∈ Finset.range offsets.length, made i, 0, 0, 0) := by
  have hold : ∀ x, Between before st x
      (Gathered.old before L offsets.length (fun i => 64 * w + offsets.getD i 0) olds x) :=
    Gathered.between hle hbetween
  have hchildren (i : ℕ) (hi : i < scan.childIndices.length) :
      (L, wordId L (scan.childIndices.getD i 0)) ∈ nodesUnder (L + 1) w := by
    rw [hlength] at hi
    rw [hindex i hi, wordId_node]
    exact mem_nodesUnder.mpr (hsel.under hi (under_self L _))
  refine ((gatherChildren_traversing hchildren st).withStable (K := fun st => ∀ x, Between before st x
    (Gathered.old before L offsets.length (fun i => 64 * w + offsets.getD i 0) olds x))
    (fun _ _ => between_rel) hold).bind ?_
  rintro r st₁ _ ⟨⟨hword, haggregate, hcount, rfl⟩, hold₁⟩
  rw [hlength] at hword haggregate hcount
  refine writeNode_traversing hin (halloc.flagWidth _ hin.1) (h.extracted hexact hin halloc hsel hscan hcell hrest
    (fun o => ?_) fun t => ?_) hold₁ ?_
  · rw [hword]
    exact hsel.mem_newWord hindex o
  · rw [haggregate]
    refine Selection.le_leastOf (fun i hi => ?_) fun i hi => h.node hi (under_self L _)
      (hcell i hi L _ (under_self L _))
    rw [hresults i hi]
    exact (congrArg Prod.snd (hcell i hi L _ (under_self L _))).symm
  · rw [hcount, Multiset.card_sum]
    exact Finset.sum_congr rfl fun i hi => congrArg Prod.fst (hresults i (Finset.mem_range.mp hi))

/-- An extraction at a node of an exact map. -/
theorem extractMinAt_traversing (hf : ∀ i < n, Lowering n 0 (f i)) (h : Exact n before S m) {L w : ℕ}
    (hin : InBounds n L w) (st : Shared T υ) :
    Ensures (traversing n threshold before) env (ExtractResult before S threshold L w)
      (extractMinAt nodes values threshold (visitor f) L (w * 64 ^ (L + 1))) st
      (cells (cellOf m) (nodesUnder L w), 0, 0, 0, 0) := by
  induction L generalizing w st with
  | zero => exact extractMinAt_leaf_traversing hf h hin st
  | succ L ih =>
    have htop := h.node hin.1 w
    have hself : (L + 1, w) ∈ nodesUnder (L + 1) w := mem_nodesUnder.mpr (under_self _ w)
    unfold extractMinAt
    rw [wordId_node]
    refine (readFlag_traversing hself st).bind ?_
    rintro _ st₁ _ ⟨rfl, rfl⟩
    refine (selectChildren_traversing (fun o ho =>
      mem_nodesUnder.mpr ((under_self L _).parent (bits_lt ho))) st₁).bind ?_
    rintro _ st₂ _ ⟨rfl, rfl⟩
    obtain ⟨hscan, hchildren⟩ := scanNode_spec m threshold L w (m.flag.load (L + 1) w)
    generalize scanNode threshold L (w * 64 ^ (L + 1 + 1)) (m.flag.load (L + 1) w) m = scan at hscan hchildren
    have hsel := Selection.of_filter (m.flag.load (L + 1) w) fun o => m.augval L (64 * w + o) ≤ threshold
    generalize (bits (m.flag.load (L + 1) w)).filter (fun o => m.augval L (64 * w + o) ≤ threshold) = offsets
      at hsel hchildren
    have hlength : scan.childIndices.length = offsets.length := by rw [hchildren, List.length_map]
    have hindex (i : ℕ) (hi : i < offsets.length) :
        scan.childIndices.getD i 0 = (64 * w + offsets.getD i 0) * 64 ^ (L + 1) := by
      rw [hchildren, getD_map _ _ hi]
    rw [hlength]
    have hchild (i : ℕ) (hi : i < offsets.length) : Ensures (traversing n threshold before) env
        (ChildResult before S threshold L (64 * w + offsets.getD i 0))
        (do
          let count ← extractMinAt nodes values threshold (visitor f) L (scan.childIndices.getD i 0)
          let aggregate ← atomicRead (augvalAt nodes L (wordId L (scan.childIndices.getD i 0)))
          return (count, aggregate)) st₂
        (cells (cellOf m) (nodesUnder L (64 * w + offsets.getD i 0)), 0, 0, 0, 0) := by
      rw [hindex i hi, wordId_node]
      exact child_traversing (ih (hsel.inBounds htop.flag (fun j hj => h.flag.lt hj) hin.1 hi) st₂)
    refine (children_traversing hsel hchild).bind ?_
    rintro results st₃ _ ⟨maps, made, olds, hgathered, hbetween, hresults, rfl⟩
    refine Ensures.use_inv fun st₄ o hrel hinv => ?_
    obtain ⟨htogether, hparts, hothers⟩ :=
      (Traversing.cells hinv).gather (children_subset hsel) (children_disjoint hsel)
    rw [htogether]
    -- the nodes as they are now; the dirty flags are not the business of this branch
    let m' : IndexMap T := { st₄.map with dirty := m.dirty }
    have halloc : Allocated n m' :=
      ⟨Traversing.flagSize hinv, h.dirty.size, Traversing.flagWidth hinv, h.dirty.width⟩
    have hcells : cellOf st₄.map = cellOf m' := rfl
    rw [hcells]
    refine gatherNode_traversing (fun K v hu => h.node (lt_of_le_of_lt hu.1 hin.1) v) hin halloc hsel hscan
      hlength hindex hgathered (fun i hi => between_rel hrel (hbetween i hi)) (Traversing.le hinv) hresults
      (fun i hi K v hu => hparts i (Finset.mem_range.mpr hi) (K, v) (mem_nodesUnder.mpr hu)) fun o hlt
        ho K v hu => ?_
    have hsame : cellOf m' (K, v) = cellOf m (K, v) :=
      hothers (K, v) (mem_nodesUnder.mpr (hu.parent hlt)) fun i hi hmem =>
        Selection.not_under ho hu (Finset.mem_range.mp hi) (mem_nodesUnder.mp hmem)
    have hflag : m'.flag.load K v = m.flag.load K v := congrArg Prod.fst hsame
    have haugval : m'.augval K v = m.augval K v := congrArg Prod.snd hsame
    exact Prod.ext hflag (Prod.ext rfl haugval)

/-- What an extraction promises: the calls of the function with the values tested, their number, and
what the next repair makes of the nodes. -/
structure Reports (n : ℕ) (before : ℕ → T) (S : Finset ℕ) (threshold : T) (count : ℕ)
    (st : Shared T υ) : Prop where
  nodup : (st.calls.map Prod.fst).Nodup
  forced : ∀ i ∈ S, before i ≤ threshold → i ∈ st.calls.map Prod.fst
  tested : ∀ p ∈ st.calls, p.1 ∈ S ∧ p.2 ≤ threshold ∧ st.sequence p.1 ≤ p.2 ∧ p.2 ≤ before p.1
  count : count = st.calls.length
  repaired : ∀ schedule, (repair schedule st.sequence st.map).1 =
      (S \ (st.calls.map Prod.fst).toFinset ∪ st.inserted.toFinset).inf st.sequence ∧
    Exact n st.sequence (S \ (st.calls.map Prod.fst).toFinset ∪ st.inserted.toFinset)
      (repair schedule st.sequence st.map).2
  unchanged : st.sequence = before → ∀ i, i ∈ st.calls.map Prod.fst ↔ i ∈ S ∧ before i ≤ threshold

/-- The result of an extraction at the root is what an extraction promises. -/
theorem reports_of_result (h : Exact n before S m) {count : ℕ} {st : Shared T υ} {a : Tokens T}
    (hinv : Traversing n threshold before st a)
    (hresult : ExtractResult before S threshold (numLayers n - 1) 0 count st a) :
    Reports n before S threshold count st := by
  have hpos := numLayers_pos n
  obtain ⟨m', made, old, hextracted, hbetween, rfl, rfl⟩ := hresult
  have hcalls : ((st.calls.map Prod.fst : List ℕ) : Multiset ℕ) = made := hinv.calls
  have hmem (i : ℕ) : i ∈ st.calls.map Prod.fst ↔ i ∈ made := by rw [← hcalls, Multiset.mem_coe]
  have hmade : made.toFinset = (st.calls.map Prod.fst).toFinset := by
    ext i
    rw [Multiset.mem_toFinset, List.mem_toFinset, hmem]
  have hforced (i : ℕ) (hi : i ∈ S) (hle : before i ≤ threshold) : i ∈ st.calls.map Prod.fst := by
    refine (hmem i).mpr (hextracted.forced i hi ?_ hle)
    rw [Nat.sub_add_cancel hpos]
    exact div_numLayers (h.flag.lt hi)
  have hcell (K v : ℕ) (hu : Under (numLayers n - 1) 0 K v) : cellOf st.map (K, v) = cellOf m' (K, v) := by
    have hcells : Holds (cellOf st.map) (cells (cellOf m') (nodesUnder (numLayers n - 1) 0) + 0) := by
      rw [add_zero]
      exact hinv.cells
    exact hcells.get (mem_nodesUnder.mpr hu)
  have hnode : ∀ K < numLayers n, ∀ v, ExactNode old (S \ made.toFinset) st.map K v := by
    intro K hK v
    by_cases hin : InBounds n K v
    · obtain ⟨_, i, hi, hiv⟩ := hin
      have hu := under_root hK hi hiv
      exact exactNode_of_cell (hextracted.nodes K v hu) (hcell K v hu)
    · have hnone (i : ℕ) (hi : i ∈ S \ made.toFinset) : i / 64 ^ (K + 1) ≠ v := fun hiv =>
        hin ⟨hK, i, h.flag.lt (Finset.mem_sdiff.mp hi).1, hiv⟩
      refine ⟨fun o => ?_, ?_⟩
      · have hflag : st.map.flag.load K v = 0 := congrArg Prod.fst (hinv.outside K v hin hK)
        rw [hflag, bits_eq_nil_iff.mpr rfl]
        refine iff_of_false List.not_mem_nil ?_
        rintro ⟨ho, i, hi, hio⟩
        exact hnone i hi (by rw [div_pow_succ, hio]; omega)
      · have haugval : st.map.augval K v = ⊤ := congrArg Prod.snd (hinv.outside K v hin hK)
        rw [haugval]
        refine (top_le_iff.mp (le_minBelow.mpr fun i hi hiv => ?_)).symm
        exact absurd hiv (hnone i hi)
  have hflag : Represents n st.map.flag (S \ made.toFinset) :=
    represents_of_flagWord hinv.flagSize hinv.flagWidth (fun i hi => h.flag.lt (Finset.mem_sdiff.mp hi).1)
      fun K hK v => (hnode K hK v).flag
  have hdirty : Represents n st.map.dirty st.inserted.toFinset := by
    refine hinv.settling.represents fun i => ?_
    rw [List.mem_toFinset]
    refine ⟨hinv.marked i, fun hi => ?_⟩
    exact (hinv.pending i hi).2.resolve_right (Multiset.notMem_zero i)
  have hlowered : Lowered old st.sequence (S \ made.toFinset) st.inserted.toFinset := by
    refine ⟨fun i _ => (hbetween i).1, fun i _ hlt => ?_⟩
    have hne : st.sequence i ≠ before i := (hlt.trans_le (hbetween i).2).ne
    rw [List.mem_toFinset]
    exact ((hinv.lowered i).resolve_left hne).resolve_right (Multiset.notMem_zero i)
  have htested (p : ℕ × T) (hp : p ∈ st.calls) : p.1 ∈ S :=
    (hextracted.mem p.1 ((hmem p.1).mp (List.mem_map_of_mem hp))).1
  refine ⟨?_, hforced, fun p hp => ?_, ?_, fun schedule => ?_,
    fun hsame i => ⟨fun hi => ?_, fun hi => hforced i hi.1 hi.2⟩⟩
  · rw [← Multiset.coe_nodup, hcalls]
    exact hextracted.nodup
  · obtain ⟨hlow, hhigh, hle⟩ := hinv.tested p hp
    exact ⟨htested p hp, hle, hlow, hhigh⟩
  · rw [← hcalls, Multiset.coe_card, List.length_map]
  · rw [← hmade]
    exact repair_spec schedule hlowered hflag hdirty fun K hK v => (hnode K hK v).augval
  · obtain ⟨p, hp, rfl⟩ := List.mem_map.mp hi
    obtain ⟨hlow, _, hle⟩ := hinv.tested p hp
    rw [hsame] at hlow
    exact ⟨htested p hp, hlow.trans hle⟩

/-- The root of a map that tracks something is in bounds, and a walk can begin there. -/
theorem traversing_start (h : Exact n before S m) (threshold : T) (u : υ) :
    Traversing n threshold before (⟨before, m, [], [], u⟩ : Shared T υ)
      (cells (cellOf m) (nodesUnder (numLayers n - 1) 0), 0, 0, 0, 0) := by
  refine ⟨h.flag.size, h.flag.width, fun K v hin hK => Prod.ext ?_ ?_, Holds.of_cells _ _, rfl,
    fun p hp => by simp at hp,
    fun _ => le_rfl, fun _ => Or.inl rfl, h.dirty.settling true, fun i hi => ?_, fun i hi => by simp at hi⟩
  · refine bits_eq_nil_iff.mp (List.eq_nil_iff_forall_not_mem.mpr fun o ho => ?_)
    obtain ⟨hlt, i, hi, hio⟩ := ((h.node hK v).flag o).mp ho
    exact hin ⟨hK, i, h.flag.lt hi, by rw [div_pow_succ, hio]; omega⟩
  · change m.augval K v = ⊤
    rw [h.augval K hK v, ← top_le_iff, le_minBelow]
    exact fun i hi hiv => absurd ⟨hK, i, h.flag.lt hi, hiv⟩ hin
  · exact absurd ((h.dirty.leaf i).mp hi) (Finset.notMem_empty i)

/-- An extraction from a map that tracks something. -/
theorem total_extractMin (h : Exact n before S m) (hf : ∀ i < n, Lowering n 0 (f i)) (hS : S.Nonempty)
    (threshold : T) (u : υ) :
    Total env (Reports n before S threshold) (extractMin nodes values threshold (visitor f))
      ⟨before, m, [], [], u⟩ := by
  obtain ⟨i, hi⟩ := hS
  have hpos := numLayers_pos n
  have hlayers : m.layers = numLayers n := h.flag.size
  have hroot : m.flag.load (m.layers - 1) 0 ≠ 0 := by
    rw [hlayers]
    exact fun hc => Finset.ne_empty_of_mem hi (h.flag.root_eq_zero.mp hc)
  have hin : InBounds n (numLayers n - 1) 0 :=
    ⟨by omega, i, h.flag.lt hi, by rw [Nat.sub_add_cancel hpos]; exact div_numLayers (h.flag.lt hi)⟩
  have hrun : Ensures (traversing n threshold before) env (ExtractResult before S threshold (numLayers n - 1) 0)
      (extractMinAt nodes values threshold (visitor f) (numLayers n - 1) (0 * 64 ^ (numLayers n - 1 + 1)))
      ⟨before, m, [], [], u⟩ (cells (cellOf m) (nodesUnder (numLayers n - 1) 0), 0, 0, 0, 0) :=
    extractMinAt_traversing hf h hin _
  rw [zero_mul] at hrun
  unfold extractMin
  refine Total.read (Total.read ?_)
  change Total env _ (if m.flag.load (m.layers - 1) 0 = 0 then _ else _) _
  rw [if_neg hroot]
  refine Total.read ?_
  change Total env _ (extractMinAt nodes values threshold (visitor f) (m.layers - 1) 0) _
  rw [hlayers]
  refine (hrun.total (traversing_start h threshold u)).mono ?_
  rintro count st ⟨_, a, hinv, hresult⟩
  exact reports_of_result h hinv hresult

/-- An extraction from an exact map whose function lowers values and inserts their indices keeps its
promises in every schedule. -/
theorem extractMin_reports (h : Exact n before S m) (hf : ∀ i < n, Lowering n 0 (f i)) (threshold : T) (u : υ) :
    Total env (Reports n before S threshold) (extractMin nodes values threshold (visitor f))
      ⟨before, m, [], [], u⟩ := by
  have hpos := numLayers_pos n
  have hlayers : m.layers = numLayers n := h.flag.size
  have hinv : Traversing n threshold before (⟨before, m, [], [], u⟩ : Shared T υ)
      (cells (cellOf m) (nodesUnder (numLayers n - 1) 0), 0, 0, 0, 0) := by
    refine ⟨h.flag.size, h.flag.width, fun K v hin hK => ?_, Holds.of_cells _ _, rfl, fun p hp => by simp at hp,
      fun _ => le_rfl, fun _ => Or.inl rfl, h.dirty.settling true, fun i hi => ?_, fun i hi => by simp at hi⟩
    · have hnone (i : ℕ) (hi : i ∈ S) : i / 64 ^ (K + 1) ≠ v := fun hiv => hin ⟨hK, i, h.flag.lt hi, hiv⟩
      refine Prod.ext ?_ ?_
      · refine bits_eq_nil_iff.mp (List.eq_nil_iff_forall_not_mem.mpr fun o ho => ?_)
        obtain ⟨hlt, i, hi, hio⟩ := ((h.node hK v).flag o).mp ho
        exact hnone i hi (by rw [div_pow_succ, hio]; omega)
      · change m.augval K v = ⊤
        rw [h.augval K hK v, ← top_le_iff, le_minBelow]
        exact fun i hi hiv => absurd hiv (hnone i hi)
    · exact absurd ((h.dirty.leaf i).mp hi) (Finset.notMem_empty i)
  unfold extractMin
  refine Total.read (Total.read ?_)
  change Total env _ (if m.flag.load (m.layers - 1) 0 = 0 then _ else _) _
  rw [hlayers]
  by_cases hS : S = ∅
  · rw [if_pos (h.flag.root_eq_zero.mpr hS)]
    refine Total.ret ⟨List.nodup_nil, fun i hi => ?_, fun p hp => ?_, rfl, fun schedule => ?_, fun _ i => ?_⟩
    · rw [hS] at hi
      exact absurd hi (Finset.notMem_empty i)
    · exact absurd hp List.not_mem_nil
    · change _ ∧ Exact n before (S \ ∅ ∪ ∅) _
      have hlowered : Lowered before before (S \ ∅) ∅ :=
        ⟨fun _ _ => le_rfl, fun i _ hlt => absurd hlt (lt_irrefl _)⟩
      have hflag : Represents n m.flag (S \ ∅) := by rw [Finset.sdiff_empty]; exact h.flag
      have haugval : ∀ K < numLayers n, ∀ v, m.augval K v = minBelow before (S \ ∅) (K + 1) v := by
        rw [Finset.sdiff_empty]
        exact h.augval
      exact repair_spec schedule hlowered hflag h.dirty haugval
    · refine iff_of_false List.not_mem_nil ?_
      rw [hS]
      exact fun hi => Finset.notMem_empty i hi.1
  · rw [if_neg fun hc => hS (h.flag.root_eq_zero.mp hc)]
    refine Total.read ?_
    change Total env _ (extractMinAt nodes values threshold (visitor f) (m.layers - 1) 0) _
    rw [hlayers]
    obtain ⟨i, hi⟩ := Finset.nonempty_iff_ne_empty.mpr hS
    have hin : InBounds n (numLayers n - 1) 0 :=
      ⟨by omega, i, h.flag.lt hi, by rw [Nat.sub_add_cancel hpos]; exact div_numLayers (h.flag.lt hi)⟩
    have hrun : Ensures (traversing n threshold before) env (ExtractResult before S threshold (numLayers n - 1) 0)
        (extractMinAt nodes values threshold (visitor f) (numLayers n - 1) (0 * 64 ^ (numLayers n - 1 + 1)))
        ⟨before, m, [], [], u⟩ (cells (cellOf m) (nodesUnder (numLayers n - 1) 0), 0, 0, 0, 0) :=
      extractMinAt_traversing hf h hin _
    rw [zero_mul] at hrun
    refine (hrun.total hinv).mono ?_
    rintro count st ⟨_, a, hinv', hresult⟩
    exact reports_of_result h hinv' hresult

/-- A function that lowers the value of index 2 and inserts the index. -/
def lowerTwo (_ : ℕ) : Prog (Shared (Fin 10) Unit) Empty Unit :=
  writeMinEntry 2 1 >>= fun lowered => if lowered then insertNoted 2 >>= fun _ => ret () else ret ()

/-- The function of the example lowers values. -/
theorem lowering_lowerTwo (i : ℕ) : Lowering 3 0 (lowerTwo i) := by
  refine Lowering.lower 0 2 1 _ fun lowered => ?_
  cases lowered with
  | true => exact Lowering.insert {2} 2 (by decide) _ fun _ => Lowering.ret ()
  | false => exact Lowering.ret ()

/-- The call on index 1 lowers the value of index 2, before or after it has been looked at. -/
theorem extractMin_reports_three :
    Total Empty.elim (Reports 3 threeValues {0, 1, 2} 3) (extractMin nodes values 3 (visitor lowerTwo))
      ⟨threeValues, create threeValues 3 true, [], [], ()⟩ := by
  have hexact : Exact 3 threeValues (if true then Finset.range 3 else ∅) (create threeValues 3 true) :=
    exact_create _ _ _
  have hset : Finset.range 3 = {0, 1, 2} := by decide
  rw [if_pos rfl, hset] at hexact
  exact extractMin_reports hexact (fun i _ => lowering_lowerTwo i) 3 ()

end Extraction

end Concurrent

end IndexMap

end ToggleTree
