import Mathlib.Data.List.Sort
import ToggleTree.GraphFile.RandomWeight

/-!
# Graphs with new weights

The driver loads a graph, gives it random weights and writes it. The lists of targets that are
loaded are determined by the file: sorting cannot tell equal targets apart, and their weights are replaced. So the
bytes that are written do not depend on the run, they are loaded as they are, and new weights for
them are the new weights for the file they come from.
-/

namespace ToggleTree

open Checked Primitives

namespace GraphFile

/-- The driver, without the names of the files. -/
def generateWeight (R : Runtime) (mapped : Bool) (fuel : ℕ) (r : ℤ) (file : List Byte) : Option (List Byte) := do
  let G ← readGraph R true true mapped fuel file
  let G ← makeRandomWeight R true r G
  writeGraph (R.schedules 12) R.uninit true G

/-- The targets of the edges of `u`. -/
def neighbours (o f : ℕ → ℕ) (u : ℕ) : List ℕ := (segment f (o u) (o (u + 1))).map lo32

section Neighbours

variable {o f o' f' : ℕ → ℕ} {n m u v i : ℕ} {offsets : Array ℕ}

/-- The number of neighbours. -/
theorem length_neighbours : (neighbours o f u).length = o (u + 1) - o u := by
  rw [neighbours, List.length_map, length_segment]

/-- The neighbours of a vertex by its slots. -/
theorem getElem?_neighbours (hi : o u ≤ i) (hi' : i < o (u + 1)) :
    (neighbours o f u)[i - o u]? = some (lo32 (f i)) := by
  have hlt : i - o u < o (u + 1) - o u := by omega
  rw [neighbours, Checked.segment, List.map_map, List.getElem?_map, List.getElem?_range' hlt, Option.map_some,
    Nat.one_mul,
    Nat.add_sub_cancel' hi]
  rfl

/-- The neighbours are the targets of the slots. -/
theorem mem_neighbours : v ∈ neighbours o f u ↔ ∃ i, o u ≤ i ∧ i < o (u + 1) ∧ lo32 (f i) = v := by
  rw [neighbours, Checked.segment, List.map_map, List.mem_map]
  refine exists_congr fun i => ?_
  rw [List.mem_range'_1, and_assoc]
  exact and_congr_right fun hi => and_congr_left fun _ => by omega

/-- The neighbours depend only on the targets. -/
theorem neighbours_congr (hu : o' u = o u) (hu' : o' (u + 1) = o (u + 1))
    (h : ∀ i, o u ≤ i → i < o (u + 1) → lo32 (f' i) = lo32 (f i)) :
    neighbours o' f' u = neighbours o f u := by
  rw [neighbours, neighbours, Checked.segment, Checked.segment, List.map_map, List.map_map, hu, hu']
  refine List.map_congr_left fun i hi => ?_
  rw [List.mem_range'_1] at hi
  exact h i hi.1 (by omega)

/-- The number of edges to a vertex by its occurrences. -/
theorem count_neighbours (o f : ℕ → ℕ) (u v : ℕ) :
    edgeCount o f (fun e => lo32 e = v) u = (neighbours o f u).count v := by
  rw [edgeCount_segment, neighbours, List.count, List.countP_map]
  exact List.countP_congr fun e _ => by simp

/-- A sum over the slots is a sum over the neighbours. -/
theorem sum_neighbours {M : Type} [AddCommMonoid M] (F : ℕ → M) :
    ∑ i ∈ Finset.Ico (o u) (o (u + 1)), F (lo32 (f i)) = ((neighbours o f u).map F).sum := by
  rw [neighbours, Checked.segment, List.map_map, List.map_map, Finset.sum_eq_multiset_sum]
  rfl

/-- The fingerprint is one of the targets. -/
theorem fingerprint_neighbours (n : ℕ) (o f : ℕ → ℕ) :
    fingerprint n o f = ∑ u ∈ Finset.range n, ((neighbours o f u).map (edgeHash u)).sum := by
  rw [fingerprint, ← Finset.range_eq_Ico]
  exact Finset.sum_congr rfl fun u _ => sum_neighbours (edgeHash u)

/-- The fingerprint does not depend on the order of the neighbours. -/
theorem fingerprint_congr (h : ∀ u < n, (neighbours o f u).Perm (neighbours o' f' u)) :
    fingerprint n o f = fingerprint n o' f' := by
  rw [fingerprint_neighbours, fingerprint_neighbours]
  exact Finset.sum_congr rfl fun u hu => ((h u (Finset.mem_range.mp hu)).map _).sum_eq

/-- Symmetric lists without repetitions. -/
theorem fingerprint_of_both (hoffsets : IsOffsets offsets n m o) (htarget : ∀ i < m, lo32 (f i) < n)
    (hnodup : ∀ u < n, (neighbours o f u).Nodup) (hboth : ∀ u < n, ∀ v ∈ neighbours o f u, u ∈ neighbours o f v) :
      fingerprint n o f = 0 := by
  have htarget' : ∀ u < n, ∀ i, o u ≤ i → i < o (u + 1) → lo32 (f i) < n := by
    intro u hu i _ hi
    exact htarget i (hi.trans_le (hoffsets.le_last (u := u + 1) hu))
  have hsymmetric : SymmetricEdges false n o f := by
    intro u hu v hv w
    by_cases hw : w = 1
    · subst hw
      have hcount (a b : ℕ) : edgeCount o f (fun e => unpackEdge false e = (b, 1)) a =
        (neighbours o f a).count b := by
        rw [← count_neighbours]
        refine edgeCount_congr fun i _ _ => ?_
        rw [unpackEdge, Prod.mk.injEq]
        exact and_iff_left rfl
      rw [hcount, hcount, (hnodup u hu).count, (hnodup v hv).count]
      exact if_congr ⟨hboth u hu v, hboth v hv u⟩ rfl rfl
    · have hnone (a b : ℕ) : edgeCount o f (fun e => unpackEdge false e = (b, w)) a = 0 := by
        refine Finset.card_eq_zero.mpr (Finset.filter_eq_empty_iff.mpr fun i _ heq => hw ?_)
        exact (Prod.mk.inj heq).2.symm
      rw [hnone, hnone]
  exact fingerprint_of_symmetric hsymmetric htarget'

/-- In sorted lists the neighbours increase. -/
theorem pairwise_neighbours (hsorted : SortedLists n o f) (hu : u < n) : (neighbours o f u).Pairwise (· ≤ ·) := by
  have hmono (i j : ℕ) (hi : o u ≤ i) (hij : i ≤ j) (hj : j < o (u + 1)) : lo32 (f i) ≤ lo32 (f j) := by
    induction j, hij using Nat.le_induction with
    | base => exact le_rfl
    | succ j hij ih => exact (ih (by omega)).trans (hsorted u hu (j + 1) (by omega) hj)
  rw [neighbours, Checked.segment, List.map_map, List.pairwise_map]
  refine (List.pairwise_lt_range' 1).imp_of_mem fun {i j} hi hj hij => ?_
  rw [List.mem_range'_1] at hi hj
  exact hmono i j hi.1 hij.le (by omega)

/-- The lists are sorted if the neighbours increase. -/
theorem sortedLists_of_pairwise (h : ∀ u < n, (neighbours o f u).Pairwise (· ≤ ·)) : SortedLists n o f := by
  intro u hu i hi hi'
  have hlength : (neighbours o f u).length = o (u + 1) - o u := length_neighbours
  have hpair := List.pairwise_iff_getElem.mp (h u hu) (i - 1 - o u) (i - o u) (by omega) (by omega) (by omega)
  have hfirst := getElem?_neighbours (f := f) (show o u ≤ i - 1 by omega) (show i - 1 < o (u + 1) by omega)
  have hsecond := getElem?_neighbours (f := f) hi.le hi'
  rw [List.getElem?_eq_getElem (by omega), Option.some.injEq] at hfirst hsecond
  rwa [hfirst, hsecond] at hpair

end Neighbours

section Listed

variable {n range : ℕ} {T : ℕ → List ℕ} {H H' : GraphData}

/-- The offset of a vertex. -/
abbrev outOffset (G : GraphData) (u : ℕ) : ℕ := G.outOffsets.getD u 0

/-- The edge of a slot. -/
abbrev outEdge (G : GraphData) (i : ℕ) : ℕ := G.outEdges.getD i 0

/-- A symmetrized graph whose lists of targets are those of `T`. -/
structure Listed (n : ℕ) (T : ℕ → List ℕ) (H : GraphData) : Prop where
  vertices : H.n = n
  offsets : IsOffsets H.outOffsets n H.m (outOffset H)
  edges : Contents H.outEdges H.m (outEdge H)
  lists : ∀ u < n, neighbours (outOffset H) (outEdge H) u = T u
  inOffsets : H.inOffsets = #[]
  inEdges : H.inEdges = #[]

/-- The weights of the edges are those of their ends. -/
structure WeightedBy (n range : ℕ) (T : ℕ → List ℕ) (H : GraphData) : Prop extends Listed n T H where
  weight : ∀ u < n, ∀ i, outOffset H u ≤ i → i < outOffset H (u + 1) →
    hi32 (outEdge H i) = pairWeight range u (lo32 (outEdge H i))

/-- The offsets are determined by the neighbours. -/
theorem Listed.outOffset_eq (h : Listed n T H) (h' : Listed n T H') {u : ℕ} (hu : u ≤ n) :
    outOffset H u = outOffset H' u := by
  induction u with
  | zero => rw [h.offsets.zero, h'.offsets.zero]
  | succ u ih =>
    have hlength := congrArg List.length ((h.lists u hu).trans (h'.lists u hu).symm)
    rw [length_neighbours, length_neighbours] at hlength
    have hle := h.offsets.le u hu
    have hle' := h'.offsets.le u hu
    have heq := ih (Nat.le_of_succ_le hu)
    omega

/-- The number of edges is determined by the neighbours. -/
theorem Listed.m_eq (h : Listed n T H) (h' : Listed n T H') : H.m = H'.m := by
  rw [← h.offsets.last, ← h'.offsets.last]
  exact h.outOffset_eq h' le_rfl

/-- The lists and the weights determine the graph. -/
theorem WeightedBy.eq (h : WeightedBy n range T H) (h' : WeightedBy n range T H') : H = H' := by
  have hm := h.m_eq h'.toListed
  have houtOffsets : H.outOffsets = H'.outOffsets := by
    refine (h.offsets.contents.congr fun u hu => ?_).eq h'.offsets.contents
    exact h.outOffset_eq h'.toListed (Nat.le_of_lt_succ hu)
  have houtEdges : H.outEdges = H'.outEdges := by
    have hedges := h'.edges
    rw [← hm] at hedges
    refine (h.edges.congr fun i hi => ?_).eq hedges
    obtain ⟨u, hu, hslot, hslot'⟩ := h.offsets.exists_slot hi
    have hfirst := h.outOffset_eq h'.toListed hu.le
    have hlast : outOffset H (u + 1) = outOffset H' (u + 1) := h.outOffset_eq h'.toListed hu
    have htarget := getElem?_neighbours (f := outEdge H) hslot hslot'
    rw [h.lists u hu, ← h'.lists u hu, hfirst, getElem?_neighbours (by omega) (by omega),
      Option.some.injEq] at htarget
    have hweight := h.weight u hu i hslot hslot'
    have hweight' := h'.weight u hu i (by omega) (by omega)
    rw [← htarget, ← hweight', hi32_eq, hi32_eq] at hweight
    rw [lo32, lo32] at htarget
    omega
  obtain ⟨hn, -, -, -, hinOffsets, hinEdges⟩ := h.toListed
  obtain ⟨hn', -, -, -, hinOffsets', hinEdges'⟩ := h'.toListed
  cases H
  cases H'
  simp_all only

/-- The edges by their contents. -/
theorem outEdge_of_contents {edges : Array ℕ} {m i : ℕ} {f : ℕ → ℕ} (h : Contents edges m f) (hi : i < m) :
    edges.getD i 0 = f i := by
  rw [Array.getD_eq_getD_getElem?, h.get i hi, Option.getD_some]

/-- New weights for the edges of a graph. -/
theorem Listed.returns_makeRandomWeight (R : Runtime) {r : ℤ} (h : Listed n T H) (hpos : 1 ≤ n) (hn : n < 2 ^ 32)
    (hr : r = -1 ∨ 0 ≤ r ∧ r ≤ 31) :
    Returns (fun H' => WeightedBy n (weightRange n r) T H' ∧ H'.m = H.m) (makeRandomWeight R true r H) := by
  rw [makeRandomWeight, h.vertices]
  refine (returns_assign hn (weightRange_pos hpos (hn.trans (by norm_num)) hr)
    (weightRange_lt n r) _ _ h.offsets h.edges).bind ?_
  rintro outEdges ⟨f, hf, htarget, hweight⟩
  have hedge : ∀ i < H.m, outEdge { H with outEdges := outEdges } i = f i := fun i hi => outEdge_of_contents hf hi
  have hslot {u i : ℕ} (hu : u < n) (hi : i < outOffset H (u + 1)) : i < H.m := hi.trans_le (h.offsets.le_last hu)
  refine Returns.pure ⟨⟨⟨rfl, h.offsets, hf.congr fun i hi => (hedge i hi).symm, fun u hu => ?_, h.inOffsets,
    h.inEdges⟩,
    fun u hu i hi hi' => ?_⟩, rfl⟩
  · refine (neighbours_congr rfl rfl fun i _ hi => ?_).trans (h.lists u hu)
    rw [hedge i (hslot hu hi), htarget i (hslot hu hi)]
  · rw [hedge i (hslot hu hi'), hweight u hu i hi hi' trivial, htarget i (hslot hu hi')]

end Listed

section Load

variable {G H : GraphData} {weighted : Bool} {n m u v : ℕ} {o f : ℕ → ℕ}

/-- The targets that are loaded: those of the file in ascending order, or each end of an edge once if
the fingerprint is not zero. -/
def loadedNeighbours (G : GraphData) (u : ℕ) : List ℕ :=
  if fingerprint G.n (outOffset G) (outEdge G) = 0 then (neighbours (outOffset G)
    (outEdge G) u).mergeSort fun x y =>
    decide (x ≤ y)
  else (List.range G.n).filter fun v =>
    u ≠ v ∧ (v ∈ neighbours (outOffset G) (outEdge G) u ∨ u ∈ neighbours (outOffset G) (outEdge G) v)

/-- The graphs that the driver is made for. -/
structure Weighable (G : GraphData) (weighted : Bool) : Prop extends WellFormed G weighted where
  n_pos : 1 ≤ G.n
  /-- The number of vertices is a bound of 32-bit counters. -/
  n_lt' : G.n < 2 ^ 32 - 1
  /-- The list with both directions of every edge fits into memory. -/
  fits : 2 * G.m * 16 < 2 ^ 63

/-- There is an edge if the vertex is a neighbour. -/
theorem exists_hasEdge : (∃ w, HasEdge weighted o f u v w) ↔ v ∈ neighbours o f u := by
  rw [mem_neighbours]
  constructor
  · rintro ⟨w, i, hi, hi', heq⟩
    exact ⟨i, hi, hi', (Prod.mk.inj heq).1⟩
  · rintro ⟨i, hi, hi', rfl⟩
    exact ⟨_, i, hi, hi', rfl⟩

/-- Converting an edge keeps its target. -/
theorem lo32_convertEdge (weighted : Bool) (e : ℕ) : lo32 (convertEdge weighted true e) = lo32 e := by
  cases weighted with
  | true => rfl
  | false =>
    change (1 * 2 ^ 32 + e % 2 ^ 32) % 2 ^ 32 = e % 2 ^ 32
    omega

/-- Ascending lists with the same elements. -/
theorem eq_of_ascending {l l' : List ℕ} (hperm : l.Perm l') (h : l.Pairwise (· ≤ ·)) (h' : l'.Pairwise (· ≤ ·)) :
    l = l' :=
  List.Perm.eq_of_pairwise (fun _ _ _ _ hab hba => le_antisymm hab hba) h h' hperm

/-- The lists of a file that is kept. -/
theorem loadedNeighbours_kept (hzero : fingerprint G.n (outOffset G) (outEdge G) = 0) {l : List ℕ}
    (hperm : l.Perm (neighbours (outOffset G) (outEdge G) u)) (hsorted : l.Pairwise (· ≤ ·)) :
      l = loadedNeighbours G u := by
  rw [loadedNeighbours, if_pos hzero]
  exact eq_of_ascending (hperm.trans (List.mergeSort_perm _ _).symm) hsorted (List.pairwise_mergeSort' _ _)

/-- The lists of the symmetric closure. -/
theorem loadedNeighbours_rebuilt {p q : ℕ → ℕ} {m' : ℕ} {offsets : Array ℕ}
    (hnonzero : fingerprint G.n (outOffset G) (outEdge G) ≠ 0)
    (hf : ∀ u < G.n, neighbours (outOffset G) f u = neighbours (outOffset G) (outEdge G) u)
    (hoffsets : IsOffsets offsets G.n m' p)
    (hclosure : SymmetricClosure true G.n m' (outOffset G) f p q) (hu : u < G.n) :
      neighbours p q u = loadedNeighbours G u := by
  rw [loadedNeighbours, if_neg hnonzero]
  have hnodup : (neighbours p q u).Nodup := by
    rw [List.nodup_iff_count_le_one]
    intro v
    rw [← count_neighbours]
    exact hclosure.simple u hu v
  have hedges : ∀ v < G.n, (v ∈ neighbours p q u ↔ u ≠ v ∧
      (v ∈ neighbours (outOffset G) (outEdge G) u ∨ u ∈ neighbours (outOffset G) (outEdge G) v)) := by
    intro v hv
    rw [← exists_hasEdge, hclosure.edge_iff u hu v hv, exists_or, exists_hasEdge, exists_hasEdge,
      hf u hu, hf v hv]
  refine eq_of_ascending ((List.perm_ext_iff_of_nodup hnodup (List.nodup_range.filter _)).mpr fun v => ?_)
    (pairwise_neighbours hclosure.sorted hu) (List.pairwise_lt_range.imp le_of_lt |>.filter _)
  rw [List.mem_filter, List.mem_range, decide_eq_true_eq]
  constructor
  · intro hmem
    obtain ⟨i, _, hi, heq⟩ := mem_neighbours.mp hmem
    have hv : v < G.n := heq ▸ hclosure.target_lt i (hi.trans_le (hoffsets.le_last (u := u + 1) hu))
    exact ⟨hv, (hedges v hv).mp hmem⟩
  · rintro ⟨hv, hedge⟩
    exact (hedges v hv).mpr hedge

/-- The offsets of an array are its own entries. -/
theorem IsOffsets.self {offsets : Array ℕ} (h : IsOffsets offsets n m o) : IsOffsets offsets n m fun u =>
    offsets.getD u 0 := by
  have hget (u : ℕ) (hu : u ≤ n) : offsets.getD u 0 = o u := outEdge_of_contents h.contents (Nat.lt_succ_of_le hu)
  refine ⟨h.contents.congr fun u hu => (hget u (Nat.le_of_lt_succ hu)).symm, ?_, fun u hu => ?_, ?_⟩
  · rw [hget 0 (Nat.zero_le n), h.zero]
  · rw [hget u hu.le, hget (u + 1) hu]
    exact h.le u hu
  · rw [hget n le_rfl, h.last]

/-- The end of `read_graph`: sorting determines lists of targets that are known but for their order. -/
theorem returns_listed (R : Runtime) {fuel : ℕ} {T : ℕ → List ℕ} (hfuel : 2 ≤ fuel) (hn : H.n = n)
    (hm : H.m < 2 ^ 59) (hoffsets : IsOffsets H.outOffsets n H.m o) (hedges : Contents H.outEdges H.m f)
    (hT : ∀ u < n, ∀ l : List ℕ, l.Perm (neighbours o f u) → l.Pairwise (· ≤ ·) → l = T u)
    (hinOffsets : H.inOffsets = #[]) (hinEdges : H.inEdges = #[]) :
    Returns (fun H' => Listed n T H' ∧ H'.m = H.m) (do
      let outEdges ← makeSorted R true fuel H.outOffsets H.outEdges H.n
      some { H with outEdges := outEdges }) := by
  rw [hn]
  refine (returns_makeSorted R true hfuel hoffsets hedges nofun).bind ?_
  rintro outEdges ⟨g, hg, hperm, hsorted⟩
  have hedge : ∀ i < H.m, outEdges.getD i 0 = g i := fun i hi => outEdge_of_contents hg hi
  refine Returns.pure ⟨⟨rfl, hoffsets.self, hg.congr fun i hi => (hedge i hi).symm, fun u hu => ?_, hinOffsets,
    hinEdges⟩, rfl⟩
  have hlists : neighbours (fun u => H.outOffsets.getD u 0) (fun i => outEdges.getD i 0) u =
    neighbours o g u := by
    refine neighbours_congr ?_ ?_ fun i _ hi => ?_
    · exact outEdge_of_contents hoffsets.contents (by omega)
    · exact outEdge_of_contents hoffsets.contents (by omega)
    · rw [hedge i (hi.trans_le (hoffsets.le_last (u := u + 1) hu))]
  exact hT u hu _ (hlists ▸ (hperm u hu).map lo32) (hlists ▸ pairwise_neighbours (hsorted hm) hu)

/-- Loading gives the lists that the file determines. -/
theorem returns_readGraph (R : Runtime) (h : Weighable G weighted) (mapped : Bool) {fuel : ℕ} (hfuel : 2 ≤ fuel) :
    Returns (fun H => Listed G.n (loadedNeighbours G) H ∧ H.m ≤ 2 * G.m)
      (readGraph R true true mapped fuel (fileOf G weighted)) := by
  obtain ⟨H, hread, hback⟩ := readBinaryFormat_eq true h.toWellFormed (R.schedules 7) R.uninit mapped R.fresh
  have hfits := h.fits
  have hoffsets : IsOffsets H.outOffsets H.n H.m (outOffset G) := by
    rw [hback.n, hback.m, hback.outOffsets]
    exact h.isOffsets
  have hcontents : Contents H.outEdges H.m fun i => convertEdge weighted true (outEdge G i) := by
    rw [hback.m, hback.outEdges]
    refine ⟨by rw [Array.size_map, h.outEdges_size], fun i hi => ?_⟩
    rw [Array.getElem?_map, h.edges.get i hi, Option.map_some]
  have hsame : ∀ u < G.n, neighbours (outOffset G) (fun i => convertEdge weighted true (outEdge G i)) u =
      neighbours (outOffset G) (outEdge G) u :=
    fun u _ => neighbours_congr rfl rfl fun i _ _ => lo32_convertEdge weighted _
  have hfingerprint : isFileSymmetrized H = some (fingerprint G.n (outOffset G) (outEdge G) == 0) := by
    rw [isFileSymmetrized_eq hoffsets hcontents, hback.n,
      fingerprint_congr fun u hu => List.Perm.of_eq (hsame u hu)]
  rw [readGraph]
  refine Returns.bind_eq hread (Returns.bind_eq hfingerprint ?_)
  by_cases hzero : fingerprint G.n (outOffset G) (outEdge G) = 0
  · rw [hzero, beq_self_eq_true]
    rw [hback.n] at hoffsets
    refine (returns_listed R hfuel hback.n (by rw [hback.m]; omega) hoffsets hcontents
      (fun u hu l hperm hsorted => ?_) hback.inOffsets
      hback.inEdges).mono fun H' ⟨hlisted, hm⟩ => ⟨hlisted, by rw [hm, hback.m]; omega⟩
    rw [hsame u hu] at hperm
    exact loadedNeighbours_kept hzero hperm hsorted
  · rw [beq_eq_false_iff_ne.mpr hzero]
    have htarget : ∀ i < H.m, lo32 (convertEdge weighted true (outEdge G i)) < H.n := by
      intro i hi
      rw [hback.m] at hi
      rw [hback.n, lo32_convertEdge]
      exact h.target_lt i hi
    have hn : H.n ≤ 2 ^ 32 := hback.n ▸ h.n_lt.le
    refine (returns_makeSymmetrized_closed R true hoffsets hcontents htarget hn (by rw [hback.m]; omega)).bind ?_
    rintro H' ⟨l, hclosed⟩
    have hclosure := hclosed.least.closure hn
    have hoffsets' := hclosed.offsets
    have hedges' := hclosed.edges
    have hle := hclosed.le
    have hothers := hclosed.others
    rw [← hclosed.length] at hclosure hoffsets' hedges' hle
    rw [hback.n] at hclosure hoffsets'
    rw [hback.m] at hle
    have hn' : H'.n = G.n := by rw [hothers, hback.n]
    refine (returns_listed R hfuel hn' (by omega) hoffsets' hedges' (fun u hu k hperm hsorted => ?_)
      (by rw [hothers]; exact hback.inOffsets) (by rw [hothers]; exact hback.inEdges)).mono
      fun H'' ⟨hlisted, hm⟩ => ⟨hlisted, hm.trans_le hle⟩
    rw [← loadedNeighbours_rebuilt hzero hsame hoffsets' hclosure hu]
    exact eq_of_ascending hperm hsorted (pairwise_neighbours hclosure.sorted hu)

/-- The neighbours in a graph that is made symmetric. -/
theorem mem_loadedNeighbours_rebuilt (hnonzero : fingerprint G.n (outOffset G) (outEdge G) ≠ 0) :
    v ∈ loadedNeighbours G u ↔ v < G.n ∧
    u ≠ v ∧ (v ∈ neighbours (outOffset G) (outEdge G) u ∨ u ∈ neighbours (outOffset G) (outEdge G) v) := by
  rw [loadedNeighbours, if_neg hnonzero, List.mem_filter, List.mem_range, decide_eq_true_eq]

/-- The neighbours in a graph that is kept are those of the file. -/
theorem perm_loadedNeighbours_kept (hzero : fingerprint G.n (outOffset G) (outEdge G) = 0) (u : ℕ) :
    (loadedNeighbours G u).Perm (neighbours (outOffset G) (outEdge G) u) := by
  rw [loadedNeighbours, if_pos hzero]
  exact List.mergeSort_perm _ _

/-- The neighbours of a loaded graph increase. -/
theorem pairwise_loadedNeighbours (G : GraphData) (u : ℕ) : (loadedNeighbours G u).Pairwise (· ≤ ·) := by
  rw [loadedNeighbours]
  split
  · exact List.pairwise_mergeSort' _ _
  · exact (List.pairwise_lt_range.imp le_of_lt).filter _

/-- The neighbours in a graph that is made symmetric are different. -/
theorem nodup_loadedNeighbours_rebuilt (hnonzero : fingerprint G.n (outOffset G) (outEdge G) ≠ 0) (u : ℕ) :
    (loadedNeighbours G u).Nodup := by
  rw [loadedNeighbours, if_neg hnonzero]
  exact List.nodup_range.filter _

/-- The neighbours of a loaded graph are vertices. -/
theorem loadedNeighbours_lt (h : WellFormed G weighted) (hu : u < G.n)
    (hv : v ∈ loadedNeighbours G u) : v < G.n := by
  by_cases hzero : fingerprint G.n (outOffset G) (outEdge G) = 0
  · obtain ⟨i, _, hi, rfl⟩ := mem_neighbours.mp ((perm_loadedNeighbours_kept hzero u).mem_iff.mp hv)
    exact h.target_lt i (hi.trans_le (h.isOffsets.le_last (u := u + 1) hu))
  · exact ((mem_loadedNeighbours_rebuilt hzero).mp hv).1

/-- Both directions of an edge are loaded, unless different edges have cancelled in the fingerprint. -/
theorem count_loadedNeighbours (hsymmetric : fingerprint G.n (outOffset G) (outEdge G) = 0 →
    SymmetricEdges false G.n (outOffset G) (outEdge G)) (hu : u < G.n) (hv : v < G.n) :
    (loadedNeighbours G u).count v = (loadedNeighbours G v).count u := by
  by_cases hzero : fingerprint G.n (outOffset G) (outEdge G) = 0
  · rw [(perm_loadedNeighbours_kept hzero u).count_eq, (perm_loadedNeighbours_kept hzero v).count_eq,
      ← count_neighbours,
      ← count_neighbours]
    exact (hsymmetric hzero).targets hu hv
  · rw [(nodup_loadedNeighbours_rebuilt hzero u).count, (nodup_loadedNeighbours_rebuilt hzero v).count]
    refine if_congr ?_ rfl rfl
    rw [mem_loadedNeighbours_rebuilt hzero, mem_loadedNeighbours_rebuilt hzero, and_iff_right hu,
      and_iff_right hv,
      ne_comm, or_comm]

/-- What is loaded has fingerprint zero. -/
theorem Listed.fingerprint_eq (h : Listed G.n (loadedNeighbours G) H) (hG : WellFormed G weighted) :
    fingerprint G.n (outOffset H) (outEdge H) = 0 := by
  by_cases hzero : fingerprint G.n (outOffset G) (outEdge G) = 0
  · rw [← hzero]
    refine fingerprint_congr fun u hu => ?_
    rw [h.lists u hu]
    exact perm_loadedNeighbours_kept hzero u
  · refine fingerprint_of_both h.offsets (fun i hi => ?_) (fun u hu => ?_) fun u hu v hv => ?_
    · obtain ⟨u, hu, hslot, hslot'⟩ := h.offsets.exists_slot hi
      refine loadedNeighbours_lt hG hu ?_
      rw [← h.lists u hu]
      exact mem_neighbours.mpr ⟨i, hslot, hslot', rfl⟩
    · rw [h.lists u hu]
      exact nodup_loadedNeighbours_rebuilt hzero u
    · rw [h.lists u hu] at hv
      obtain ⟨hlt, hne, hedge⟩ := (mem_loadedNeighbours_rebuilt hzero).mp hv
      rw [h.lists v hlt]
      exact (mem_loadedNeighbours_rebuilt hzero).mpr ⟨hu, hne.symm, hedge.symm⟩

end Load

section Driver

variable {G H : GraphData} {weighted : Bool} {n range : ℕ} {r : ℤ}

/-- A graph with new weights can be written. -/
theorem WeightedBy.wellFormed (h : WeightedBy G.n range (loadedNeighbours G) H) (hG : Weighable G weighted)
    (hm : H.m ≤ 2 * G.m)
    (hpos : 0 < range) (hrange : range < 2 ^ 32) : WellFormed H true where
  n_lt := h.vertices ▸ hG.n_lt
  outOffsets_size := h.vertices ▸ h.offsets.contents.size
  outEdges_size := h.edges.size
  offset_zero := h.offsets.zero
  offset_le := h.vertices ▸ h.offsets.le
  offset_last := h.vertices ▸ h.offsets.last
  target_lt i hi := by
    obtain ⟨u, hu, hslot, hslot'⟩ := h.offsets.exists_slot hi
    rw [h.vertices]
    refine loadedNeighbours_lt hG.toWellFormed hu ?_
    rw [← h.lists u hu]
    exact mem_neighbours.mpr ⟨i, hslot, hslot', rfl⟩
  edge_lt i hi := by
    obtain ⟨u, hu, hslot, hslot'⟩ := h.offsets.exists_slot hi
    have hweight := h.weight u hu i hslot hslot'
    have hle : pairWeight range u (lo32 (outEdge H i)) ≤ range := pairWeight_le hpos
    rw [← hweight, hi32_eq] at hle
    change outEdge H i < 2 ^ 64
    omega
  bytes_lt := by
    have hfits := hG.fits
    have hn := hG.n_lt
    rw [h.vertices]
    omega

/-- The file with the weights is read as it was written. -/
theorem WeightedBy.readGraph_eq (h : WeightedBy G.n range (loadedNeighbours G) H) (hG : Weighable G weighted)
    (hH : WellFormed H true)
    (R : Runtime) (mapped : Bool) {fuel : ℕ} (hfuel : 1 ≤ fuel) :
      readGraph R true true mapped fuel (fileOf H true) = some H := by
  refine readGraph_of_fingerprint R hH ?_ ?_ h.inOffsets h.inEdges mapped hfuel
  · rw [h.vertices]
    refine sortedLists_of_pairwise fun u hu => ?_
    rw [h.lists u hu]
    exact pairwise_loadedNeighbours G u
  · rw [isFileSymmetrized_eq hH.isOffsets hH.edges, h.vertices, h.fingerprint_eq hG.toWellFormed,
      beq_self_eq_true]

/-- Both directions of an edge have the same weight. -/
theorem WeightedBy.consistent (h : WeightedBy G.n range (loadedNeighbours G) H)
    (hsymmetric : fingerprint G.n (outOffset G) (outEdge G) = 0 →
      SymmetricEdges false G.n (outOffset G) (outEdge G)) :
    Consistent true true H := by
  have hoffsets : IsOffsets H.outOffsets H.n H.m (outOffset H) := h.vertices.symm ▸ h.offsets
  refine (consistent_iff true H hoffsets h.edges hoffsets h.edges).mpr fun u hu v hv w => ?_
  rw [h.vertices] at hu hv
  have hcount {a : ℕ} (ha : a < G.n) (b : ℕ) :
    edgeCount (outOffset H) (outEdge H) (fun e => unpackEdge true e = (b, w)) a =
      if w = pairWeight range a b then (loadedNeighbours G a).count b else 0 := by
    rw [edgeCount_weighted h.offsets (fun _ _ => rfl) (fun u hu i hi hi' _ => h.weight u hu i hi hi') ha,
      ← h.lists a ha,
      ← count_neighbours]
    refine if_congr Iff.rfl (edgeCount_congr fun i _ _ => ?_) rfl
    rw [unpackEdge, Prod.mk.injEq]
    exact and_iff_left rfl
  rw [hcount hu, hcount hv, pairWeight_comm range v u, count_loadedNeighbours hsymmetric hu hv]

/-- The driver writes the graph with the lists of the file and the new weights. -/
theorem returns_generateWeight (hG : Weighable G weighted) (hr : r = -1 ∨ 0 ≤ r ∧ r ≤ 31) (R : Runtime)
    (mapped : Bool) {fuel : ℕ}
    (hfuel : 2 ≤ fuel) :
    ∃ H, WeightedBy G.n (weightRange G.n r) (loadedNeighbours G) H ∧ WellFormed H true ∧
      generateWeight R mapped fuel r (fileOf G weighted) = some (fileOf H true) := by
  have hn : G.n < 2 ^ 64 := hG.n_lt.trans (by norm_num)
  obtain ⟨H, hread, hlisted, hm⟩ := returns_readGraph R hG mapped hfuel
  obtain ⟨H', hweight, hweighted, hm'⟩ := hlisted.returns_makeRandomWeight R hG.n_pos hG.n_lt hr
  have hH' := hweighted.wellFormed hG (hm'.trans_le hm) (weightRange_pos hG.n_pos hn hr) (weightRange_lt _ _)
  refine ⟨H', hweighted, hH', ?_⟩
  rw [generateWeight]
  refine (bind_eq_of_eq hread _).trans ((bind_eq_of_eq hweight _).trans ?_)
  exact writeGraph_eq hH' _ _

/-- The driver writes the same bytes in every run; they are loaded as the graph that was written, whose
edges have the weights of their ends, equal in both directions; and new weights for the new file are the
new weights for the old one. -/
theorem generateWeight_determined (hG : Weighable G weighted) (hr : r = -1 ∨ 0 ≤ r ∧ r ≤ 31) :
    ∃ H, WeightedBy G.n (weightRange G.n r) (loadedNeighbours G) H ∧
      (∀ R mapped fuel, 2 ≤ fuel → generateWeight R mapped fuel r (fileOf G weighted) = some (fileOf H true)) ∧
      (∀ R mapped fuel, 1 ≤ fuel → readGraph R true true mapped fuel (fileOf H true) = some H) ∧
      ((fingerprint G.n (outOffset G) (outEdge G) = 0 → SymmetricEdges false G.n (outOffset G) (outEdge G)) →
        Consistent true true H) ∧
      ∀ R mapped fuel r', 2 ≤ fuel → (r' = -1 ∨ 0 ≤ r' ∧ r' ≤ 31) →
        generateWeight R mapped fuel r' (fileOf H true) =
          generateWeight R mapped fuel r' (fileOf G weighted) := by
  obtain ⟨H, hH, hwell, -⟩ := returns_generateWeight hG hr Runtime.sequential true le_rfl
  refine ⟨H, hH, fun R mapped fuel hfuel => ?_, fun R mapped fuel hfuel =>
    hH.readGraph_eq hG hwell R mapped hfuel,
    hH.consistent,
    fun R mapped fuel r' hfuel hr' => ?_⟩
  · obtain ⟨H', hH', -, heq⟩ := returns_generateWeight hG hr R mapped hfuel
    rw [heq, hH'.eq hH]
  · obtain ⟨H', hH', hwell', heq⟩ := returns_generateWeight hG hr' R mapped hfuel
    have hread := hH.readGraph_eq hG hwell R mapped (show 1 ≤ fuel by omega)
    obtain ⟨H'', hweight, hH'', -⟩ := hH.toListed.returns_makeRandomWeight R hG.n_pos hG.n_lt hr'
    rw [heq, generateWeight]
    refine (bind_eq_of_eq hread _).trans ((bind_eq_of_eq hweight _).trans ?_)
    rw [hH''.eq hH']
    exact writeGraph_eq hwell' _ _

/-- The graph with one edge can be given weights. -/
theorem weighable_oneEdge : Weighable oneEdge true := ⟨wellFormed_oneEdge, by decide, by decide, by decide⟩

/-- New weights for an edge with weight 7. -/
theorem generateWeight_determined_oneEdge : ∃ H, WeightedBy 2 (weightRange 2 4) (loadedNeighbours oneEdge) H ∧
    generateWeight Runtime.sequential true 2 4 (fileOf oneEdge true) = some (fileOf H true) := by
  obtain ⟨H, hH, hwrite, -⟩ :=
    generateWeight_determined weighable_oneEdge (r := 4) (Or.inr ⟨by decide, by decide⟩)
  exact ⟨H, hH, hwrite Runtime.sequential true 2 le_rfl⟩

end Driver

end GraphFile

end ToggleTree
