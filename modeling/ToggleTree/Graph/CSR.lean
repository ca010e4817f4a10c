import ToggleTree.Graph.Walk

/-!
# Graphs in compressed sparse row format

The slots of vertex `u` are the positions from `offsets u` up to `offsets (u + 1)` of the edge
array. An edge word holds the neighbour in its lower half and, if the graph is weighted, the
weight in its upper half. A symmetrized graph has one array for both directions.
-/

namespace ToggleTree

/-- One direction of a graph: for each vertex a range of slots whose entries name vertices. -/
structure Adjacency (n : ℕ) where
  offsets : ℕ → ℕ
  edges : ℕ → ℕ
  offsets_zero : offsets 0 = 0
  offsets_le : ∀ u < n, offsets u ≤ offsets (u + 1)
  edges_lt : ∀ i < offsets n, edges i % 2 ^ 32 < n

/-- A graph with `n` vertices and `m` edge slots. -/
structure CSR where
  symmetrized : Bool
  weighted : Bool
  n : ℕ
  m : ℕ
  outgoing : Adjacency n
  incoming : Adjacency n
  outgoing_last : outgoing.offsets n = m

namespace Adjacency

variable {n u v : ℕ} (a : Adjacency n)

/-- The offsets increase. -/
theorem offsets_mono (huv : u ≤ v) (hv : v ≤ n) : a.offsets u ≤ a.offsets v := by
  induction v, huv using Nat.le_induction with
  | base => exact le_rfl
  | succ v _ ih => exact (ih (by omega)).trans (a.offsets_le v (by omega))

/-- Slots of different vertices differ. -/
theorem slot_unique {i : ℕ} (hu : u < n) (hv : v < n) (hui : a.offsets u ≤ i) (hiu : i < a.offsets (u + 1))
    (hvi : a.offsets v ≤ i) (hiv : i < a.offsets (v + 1)) : u = v := by
  by_contra hne
  rcases Nat.lt_or_gt_of_ne hne with h | h
  · have := a.offsets_mono (show u + 1 ≤ v by omega) hv.le
    omega
  · have := a.offsets_mono (show v + 1 ≤ u by omega) hu.le
    omega

/-- The slots of a vertex name vertices. -/
theorem edge_lt {i : ℕ} (hu : u < n) (hi : i < a.offsets (u + 1)) : a.edges i % 2 ^ 32 < n :=
  a.edges_lt i (hi.trans_le (a.offsets_mono (by omega) le_rfl))

end Adjacency

namespace CSR

variable (G : CSR)

/-- `out_offsets[i]` -/
def outOffset (i : ℕ) : ℕ := G.outgoing.offsets i

/-- `in_offsets[i]`; a symmetrized graph has its outgoing edges there. -/
def inOffset (i : ℕ) : ℕ := if G.symmetrized then G.outgoing.offsets i else G.incoming.offsets i

/-- The vertex in `out_edges[i]`. -/
def outEdge (i : ℕ) : ℕ := G.outgoing.edges i % 2 ^ 32

/-- The vertex in `in_edges[i]`. -/
def inEdge (i : ℕ) : ℕ :=
  if G.symmetrized then G.outgoing.edges i % 2 ^ 32 else G.incoming.edges i % 2 ^ 32

/-- The neighbour and the weight in an edge word; without weights every edge counts 1. -/
def unpackEdge (e : ℕ) : ℕ × ℕ := (e % 2 ^ 32, if G.weighted then e >>> 32 % 2 ^ 32 else 1)

/-- The vertex and the weight in `out_edges[i]`. -/
def weightedOutEdge (i : ℕ) : ℕ × ℕ := G.unpackEdge (G.outgoing.edges i)

/-- The vertex and the weight in `in_edges[i]`. -/
def weightedInEdge (i : ℕ) : ℕ × ℕ :=
  G.unpackEdge (if G.symmetrized then G.outgoing.edges i else G.incoming.edges i)

/-- Slot `i` belongs to the out-list of `u`. -/
def OutSlot (u i : ℕ) : Prop := G.outOffset u ≤ i ∧ i < G.outOffset (u + 1)

/-- Slot `i` belongs to the in-list of `v`. -/
def InSlot (v i : ℕ) : Prop := G.inOffset v ≤ i ∧ i < G.inOffset (v + 1)

/-- Some slot of `u` names `v`. -/
def Edge (u v : ℕ) : Prop := u < G.n ∧ ∃ i, G.OutSlot u i ∧ G.outEdge i = v

/-- Some slot of `u` names `v` with weight `w`. -/
def WeightedEdge (u v w : ℕ) : Prop := u < G.n ∧ ∃ i, G.OutSlot u i ∧ G.weightedOutEdge i = (v, w)

/-- The in-lists are the transpose of the out-lists; parallel edges need not be counted alike. -/
def Transposed : Prop := ∀ u v, G.Edge u v ↔ v < G.n ∧ ∃ i, G.InSlot v i ∧ G.inEdge i = u

/-- The in-lists with their weights are the transpose of the out-lists with theirs. -/
def WeightedTransposed : Prop :=
  ∀ u v w, G.WeightedEdge u v w ↔ v < G.n ∧ ∃ i, G.InSlot v i ∧ G.weightedInEdge i = (u, w)

/-- Every in-list is in ascending order of the neighbours. -/
def InSorted : Prop := ∀ v < G.n, ∀ i, G.inOffset v ≤ i → i + 1 < G.inOffset (v + 1) →
  G.inEdge i ≤ G.inEdge (i + 1)

/-- Every edge counted with weight 1. -/
def hop (u v w : ℕ) : Prop := G.Edge u v ∧ w = 1

variable {G} {u v w i : ℕ}

/-- The outgoing offsets increase. -/
theorem outOffset_le (hu : u < G.n) : G.outOffset u ≤ G.outOffset (u + 1) := G.outgoing.offsets_le u hu

/-- The incoming offsets increase. -/
theorem inOffset_le (hv : v < G.n) : G.inOffset v ≤ G.inOffset (v + 1) := by
  unfold inOffset
  split
  · exact G.outgoing.offsets_le v hv
  · exact G.incoming.offsets_le v hv

/-- The outgoing edges end at vertices. -/
theorem outEdge_lt (hu : u < G.n) (hi : G.OutSlot u i) : G.outEdge i < G.n := G.outgoing.edge_lt hu hi.2

/-- The incoming edges begin at vertices. -/
theorem inEdge_lt (hv : v < G.n) (hi : G.InSlot v i) : G.inEdge i < G.n := by
  unfold InSlot inOffset at hi
  unfold inEdge
  split
  · next h =>
    rw [if_pos h, if_pos h] at hi
    exact G.outgoing.edge_lt hv hi.2
  · next h =>
    rw [if_neg h, if_neg h] at hi
    exact G.incoming.edge_lt hv hi.2

/-- A slot belongs to one vertex. -/
theorem slot_unique (hu : u < G.n) (hv : v < G.n) (hi : G.OutSlot u i) (hi' : G.OutSlot v i) : u = v :=
  G.outgoing.slot_unique hu hv hi.1 hi.2 hi'.1 hi'.2

/-- The weighted edge ends where the edge does. -/
@[simp] theorem weightedOutEdge_fst (i : ℕ) : (G.weightedOutEdge i).1 = G.outEdge i := rfl

/-- The weighted incoming edge begins where the edge does. -/
@[simp] theorem weightedInEdge_fst (i : ℕ) : (G.weightedInEdge i).1 = G.inEdge i := by
  unfold weightedInEdge unpackEdge inEdge
  split <;> rfl

/-- A weight has 32 bits. -/
theorem weightedOutEdge_snd_lt (i : ℕ) : (G.weightedOutEdge i).2 < 2 ^ 32 := by
  unfold weightedOutEdge unpackEdge
  dsimp only
  split
  · exact Nat.mod_lt _ (by norm_num)
  · norm_num

/-- An edge ends at a vertex. -/
theorem Edge.lt (h : G.Edge u v) : v < G.n := by
  obtain ⟨hu, i, hi, rfl⟩ := h
  exact outEdge_lt hu hi

/-- A weighted edge ends at a vertex. -/
theorem WeightedEdge.lt (h : G.WeightedEdge u v w) : v < G.n := by
  obtain ⟨hu, i, hi, hw⟩ := h
  have hv : G.outEdge i = v := congrArg Prod.fst hw
  exact hv ▸ outEdge_lt hu hi

/-- The number of edges on a shortest path. -/
noncomputable def hopDistance (G : CSR) (source v : ℕ) : ℕ∞ := Arcs.distance G.hop source v

/-- The least total weight of a path. -/
noncomputable def weightedDistance (G : CSR) (source v : ℕ) : ℕ∞ :=
  Arcs.distance G.WeightedEdge source v

/-- A finite hop distance is below the number of vertices. -/
theorem hopDistance_lt {source d : ℕ} (hsource : source < G.n) (h : G.hopDistance source v = d) :
    d < G.n ∧ v < G.n := by
  have hmem : ∀ u v w, G.hop u v w → v ∈ Finset.range G.n := fun u v w h => Finset.mem_range.mpr h.1.lt
  obtain ⟨k, hk, hwalk⟩ := Arcs.exists_short_walk (Finset.mem_range.mpr hsource) hmem h
  have hweight := hwalk.weight_eq fun u v w h => h.2
  rw [Finset.card_range] at hk
  exact ⟨by omega, Finset.mem_range.mp (hwalk.mem (Finset.mem_range.mpr hsource) hmem)⟩

/-- Two vertices that name each other. -/
def twoWays : CSR where
  symmetrized := true
  weighted := false
  n := 2
  m := 2
  outgoing :=
    { offsets := fun i => i
      edges := fun i => if i = 0 then 1 else 0
      offsets_zero := rfl
      offsets_le := by decide
      edges_lt := by decide }
  incoming :=
    { offsets := fun i => i
      edges := fun i => if i = 0 then 1 else 0
      offsets_zero := rfl
      offsets_le := by decide
      edges_lt := by decide }
  outgoing_last := rfl

/-- Two vertices and one edge, from the first to the second. -/
def oneEdge : CSR where
  symmetrized := false
  weighted := false
  n := 2
  m := 1
  outgoing :=
    { offsets := fun i => if i = 0 then 0 else 1
      edges := fun _ => 1
      offsets_zero := rfl
      offsets_le := by decide
      edges_lt := by decide }
  incoming :=
    { offsets := fun i => if i ≤ 1 then 0 else 1
      edges := fun _ => 0
      offsets_zero := rfl
      offsets_le := by decide
      edges_lt := by decide }
  outgoing_last := rfl

/-- The incoming edges of the graph are its outgoing ones. -/
theorem oneEdge_transposed : oneEdge.Transposed := by
  intro u v
  constructor
  · rintro ⟨hu, i, ⟨_, hi⟩, rfl⟩
    obtain rfl : u = 0 := by
      have hu' : u < 2 := hu
      interval_cases u
      · rfl
      · simp_all [outOffset, oneEdge]
    exact ⟨Nat.one_lt_two, 0, ⟨le_rfl, Nat.one_pos⟩, rfl⟩
  · rintro ⟨hv, i, ⟨hi, hi'⟩, rfl⟩
    obtain rfl : v = 1 := by
      have hv' : v < 2 := hv
      interval_cases v
      · simp_all [inOffset, oneEdge]
      · rfl
    exact ⟨Nat.two_pos, 0, ⟨le_rfl, Nat.one_pos⟩, rfl⟩

/-- The one edge has weight 1 in either list. -/
theorem oneEdge_weightedTransposed : oneEdge.WeightedTransposed := by
  intro u v w
  constructor
  · rintro ⟨hu, i, hi, heq⟩
    obtain ⟨hv, j, hj, hsource⟩ := (oneEdge_transposed u v).mp ⟨hu, i, hi, congrArg Prod.fst heq⟩
    have hw : 1 = w := congrArg Prod.snd heq
    exact ⟨hv, j, hj, Prod.ext hsource hw⟩
  · rintro ⟨hv, i, hi, heq⟩
    obtain ⟨hu, j, hj, htarget⟩ := (oneEdge_transposed u v).mpr ⟨hv, i, hi, congrArg Prod.fst heq⟩
    have hw : 1 = w := congrArg Prod.snd heq
    exact ⟨hu, j, hj, Prod.ext htarget hw⟩

end CSR

end ToggleTree
