import ToggleTree.Graph.CSR

/-!
# Symmetric graphs

In a symmetric graph two vertices have equally many slots for each other, parallel edges and
self-loops included. The slots of a set of vertices that name a vertex are as many as the slots of
that vertex that name the set.
-/

namespace ToggleTree

namespace CSR

variable (G : CSR)

/-- The number of slots of `u`. -/
def degree (u : ℕ) : ℕ := G.outOffset (u + 1) - G.outOffset u

/-- The number of slots of `u` that name `v`. -/
def slotsTo (u v : ℕ) : ℕ := {i ∈ Finset.Ico (G.outOffset u) (G.outOffset (u + 1)) | G.outEdge i = v}.card

/-- The slots of `u`, as a resource that can be split. -/
def slots (u : ℕ) : Multiset ℕ := (Finset.Ico (G.outOffset u) (G.outOffset (u + 1))).val

/-- The number of slots that name `v`. -/
def countTo (pending : Multiset ℕ) (v : ℕ) : ℕ := pending.countP fun i => G.outEdge i = v

/-- Two vertices name each other equally often. -/
def Symmetric : Prop := ∀ u < G.n, ∀ v < G.n, G.slotsTo u v = G.slotsTo v u

variable {G} {u v i : ℕ}

/-- The slots of a vertex. -/
theorem mem_slots : i ∈ Finset.Ico (G.outOffset u) (G.outOffset (u + 1)) ↔ G.OutSlot u i := Finset.mem_Ico

/-- There is an edge if a slot leads to the vertex. -/
theorem slotsTo_pos : 0 < G.slotsTo u v ↔ ∃ i, G.OutSlot u i ∧ G.outEdge i = v := by
  rw [slotsTo, Finset.card_pos]
  exact exists_congr fun i => by rw [Finset.mem_filter, mem_slots]

/-- At most all slots lead to one vertex. -/
theorem slotsTo_le_degree (u v : ℕ) : G.slotsTo u v ≤ G.degree u := by
  refine (Finset.card_filter_le _ _).trans ?_
  rw [Nat.card_Ico]
  exact le_rfl

/-- Every edge of a symmetric graph goes both ways. -/
theorem Symmetric.edge (h : G.Symmetric) (hedge : G.Edge u v) : G.Edge v u := by
  have hv := hedge.lt
  obtain ⟨hu, hslot⟩ := hedge
  refine ⟨hv, slotsTo_pos.mp ?_⟩
  rw [← h u hu v hv]
  exact slotsTo_pos.mpr hslot

/-- The slots of a vertex cannot hold more values than there are slots. -/
theorem exists_value_le_degree (f : ℕ → ℕ) (v : ℕ) : ∃ c ≤ G.degree v, ∀ i, G.OutSlot v i → f i ≠ c := by
  have hcard :
      ((Finset.Ico (G.outOffset v) (G.outOffset (v + 1))).image f).card < (Finset.range
        (G.degree v + 1)).card := by
    refine Finset.card_image_le.trans_lt ?_
    rw [Nat.card_Ico, Finset.card_range]
    exact Nat.lt_succ_self _
  obtain ⟨c, hc, hfree⟩ := Finset.exists_mem_notMem_of_card_lt_card hcard
  refine ⟨c, Nat.le_of_lt_succ (Finset.mem_range.mp hc), fun i hi heq => hfree ?_⟩
  exact Finset.mem_image.mpr ⟨i, mem_slots.mpr hi, heq⟩

/-- The slots of two parts that lead to a vertex. -/
theorem countTo_add (a b : Multiset ℕ) (v : ℕ) : G.countTo (a + b) v = G.countTo a v + G.countTo b v :=
  Multiset.countP_add _ a b

/-- Whether one slot leads to a vertex. -/
theorem countTo_singleton (i v : ℕ) : G.countTo {i} v = if G.outEdge i = v then 1 else 0 := by
  rw [countTo, ← Multiset.cons_zero, Multiset.countP_cons, Multiset.countP_zero, zero_add]

/-- All slots of a vertex that lead to another one. -/
theorem countTo_slots (u v : ℕ) : G.countTo (G.slots u) v = G.slotsTo u v := by
  rw [countTo, Multiset.countP_eq_card_filter]
  rfl

/-- The slots of a set of vertices that lead to one. -/
theorem countTo_sum (F : Finset ℕ) (v : ℕ) : G.countTo (∑ u ∈ F, G.slots u) v = ∑ u ∈ F, G.slotsTo u v := by
  change Multiset.countPAddMonoidHom (fun i => G.outEdge i = v) (∑ u ∈ F, G.slots u) = _
  rw [map_sum]
  exact Finset.sum_congr rfl fun u _ => countTo_slots u v

/-- As many slots of `F` name `v` as slots of `v` name vertices of `F`. -/
theorem Symmetric.countTo_eq (h : G.Symmetric) {F : Finset ℕ} (hF : ∀ u ∈ F, u < G.n) (hv : v < G.n) :
    G.countTo (∑ u ∈ F, G.slots u) v =
      {i ∈ Finset.Ico (G.outOffset v) (G.outOffset (v + 1)) | G.outEdge i ∈ F}.card := by
  have hmaps : ∀ i ∈ {i ∈ Finset.Ico (G.outOffset v) (G.outOffset (v + 1)) | G.outEdge i ∈ F}, G.outEdge i ∈ F :=
    fun i hi => (Finset.mem_filter.mp hi).2
  rw [countTo_sum, Finset.card_eq_sum_card_fiberwise hmaps]
  refine Finset.sum_congr rfl fun u hu => ?_
  rw [h u (hF u hu) v hv, slotsTo, Finset.filter_filter]
  refine congrArg Finset.card (Finset.filter_congr fun i _ => ?_)
  constructor
  · rintro rfl
    exact ⟨hu, rfl⟩
  · exact fun h => h.2

section Parallel

/-- Two vertices with `k` edges between them. -/
def parallelEdges (k : ℕ) : CSR where
  symmetrized := true
  weighted := false
  n := 2
  m := 2 * k
  outgoing :=
    { offsets := fun i => i * k
      edges := fun i => if i < k then 1 else 0
      offsets_zero := Nat.zero_mul k
      offsets_le := fun i _ => Nat.mul_le_mul_right k (Nat.le_succ i)
      edges_lt := fun i _ => by split <;> decide }
  incoming :=
    { offsets := fun i => i * k
      edges := fun i => if i < k then 1 else 0
      offsets_zero := Nat.zero_mul k
      offsets_le := fun i _ => Nat.mul_le_mul_right k (Nat.le_succ i)
      edges_lt := fun i _ => by split <;> decide }
  outgoing_last := rfl

/-- Each of the two vertices has a slot for each edge. -/
theorem degree_parallelEdges (k v : ℕ) : (parallelEdges k).degree v = k := by
  change (v + 1) * k - v * k = k
  rw [Nat.succ_mul, Nat.add_sub_cancel_left]

/-- The slots of the first vertex name the second one. -/
theorem slotsTo_parallelEdges_zero (k : ℕ) : (parallelEdges k).slotsTo 0 1 = k := by
  have hall : ∀ i ∈ Finset.Ico (0 * k) ((0 + 1) * k), (parallelEdges k).outEdge i = 1 := by
    intro i hi
    have hlt : i < k := by simpa using hi
    change (if i < k then 1 else 0) % 2 ^ 32 = 1
    rw [if_pos hlt]
    rfl
  rw [slotsTo]
  change (Finset.filter _ (Finset.Ico (0 * k) ((0 + 1) * k))).card = k
  rw [Finset.filter_true_of_mem hall, Nat.card_Ico, Nat.succ_mul, Nat.add_sub_cancel_left]

/-- The slots of the second vertex name the first one. -/
theorem slotsTo_parallelEdges_one (k : ℕ) : (parallelEdges k).slotsTo 1 0 = k := by
  have hall : ∀ i ∈ Finset.Ico (1 * k) ((1 + 1) * k), (parallelEdges k).outEdge i = 0 := by
    intro i hi
    have hle : ¬i < k := by
      have hbound := (Finset.mem_Ico.mp hi).1
      omega
    change (if i < k then 1 else 0) % 2 ^ 32 = 0
    rw [if_neg hle]
    rfl
  rw [slotsTo]
  change (Finset.filter _ (Finset.Ico (1 * k) ((1 + 1) * k))).card = k
  rw [Finset.filter_true_of_mem hall, Nat.card_Ico, Nat.succ_mul, Nat.add_sub_cancel_left]

/-- Parallel edges in both directions are symmetric. -/
theorem symmetric_parallelEdges (k : ℕ) : (parallelEdges k).Symmetric := by
  intro u hu v hv
  have hu' : u < 2 := hu
  have hv' : v < 2 := hv
  interval_cases u <;> interval_cases v
  · rfl
  · rw [slotsTo_parallelEdges_zero, slotsTo_parallelEdges_one]
  · rw [slotsTo_parallelEdges_zero, slotsTo_parallelEdges_one]
  · rfl

end Parallel

end CSR

end ToggleTree
