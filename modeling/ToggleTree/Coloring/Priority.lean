import ToggleTree.Graph.FirstFit
import ToggleTree.Graph.Symmetric
import ToggleTree.Primitives.Hash

/-!
# The order of the vertices

Vertices of larger degree come first, and among those of one degree the ones with the smaller hash.
The first-fit colouring in this order is what the parallel algorithm is to compute.
-/

namespace ToggleTree

namespace Coloring

variable (G : CSR)

/-- Vertex `d` comes before vertex `s`. -/
def prior (d s : ℕ) : Prop :=
  G.degree d > G.degree s ∨
    G.degree d = G.degree s ∧ hash32 (BitVec.ofNat 32 d) < hash32 (BitVec.ofNat 32 s)

/-- The priority can be decided. -/
instance (d s : ℕ) : Decidable (prior G d s) := inferInstanceAs (Decidable (_ ∨ _))

/-- All vertices, each before those that it is prior to. -/
def visitOrder : List ℕ := (List.range G.n).mergeSort fun u v => decide (¬prior G v u)

/-- The neighbours of a vertex. -/
def neighbours (v : ℕ) : List ℕ := (List.range' (G.outOffset v) (G.degree v)).map G.outEdge

/-- The sequential greedy colouring. -/
def sequentialGreedy : ℕ → Option ℕ := FirstFit.coloring (neighbours G) (visitOrder G)

/-- The colour of a vertex in the sequential colouring. -/
def chosen (v : ℕ) : ℕ := (sequentialGreedy G v).getD 0

/-- The order as an order of pairs. -/
def rank (v : ℕ) : ℕᵒᵈ ×ₗ ℕ := toLex (OrderDual.toDual (G.degree v), (hash32 (BitVec.ofNat 32 v)).toNat)

variable {G} {u v : ℕ}

/-- Priority is a lesser rank. -/
theorem prior_iff : prior G u v ↔ rank G u < rank G v := by
  rw [rank, rank, Prod.Lex.toLex_lt_toLex]
  refine or_congr Iff.rfl (and_congr ?_ BitVec.lt_def)
  exact OrderDual.toDual_inj.symm

/-- Different vertices have different ranks. -/
theorem rank_injOn (hu : u < 2 ^ 32) (hv : v < 2 ^ 32) (h : rank G u = rank G v) : u = v := by
  have hhash : (hash32 (BitVec.ofNat 32 u)).toNat = (hash32 (BitVec.ofNat 32 v)).toNat :=
    congrArg (fun p => (ofLex p).2) h
  have hword := congrArg BitVec.toNat (hash32_injective (BitVec.eq_of_toNat_eq hhash))
  rwa [BitVec.toNat_ofNat, BitVec.toNat_ofNat, Nat.mod_eq_of_lt hu, Nat.mod_eq_of_lt hv] at hword

/-- Of two vertices at most one has priority. -/
theorem prior_asymm (h : prior G u v) : ¬prior G v u := by
  rw [prior_iff] at h ⊢
  exact h.asymm

/-- Of two different vertices one has priority. -/
theorem prior_total (hu : u < 2 ^ 32) (hv : v < 2 ^ 32) (hne : u ≠ v) : prior G u v ∨ prior G v u := by
  rw [prior_iff, prior_iff]
  exact lt_or_gt_of_ne fun h => hne (rank_injOn hu hv h)

/-- The hashes can be undone in both orders, so ties between degrees are broken in one way only. -/
theorem hash_inverse_tieBreak (G : CSR) :
    (∀ x, unhash32 (hash32 x) = x) ∧ (∀ x, hash32 (unhash32 x) = x) ∧
    (∀ x, Primitives.unhash64 (Primitives.hash64 x) = x) ∧ (∀ x, Primitives.hash64 (Primitives.unhash64 x) = x) ∧
    Function.Bijective hash32 ∧ Function.Bijective Primitives.hash64 ∧
    IsStrictTotalOrder {v : ℕ // v < 2 ^ 32} fun d s => prior G d s := by
  refine ⟨unhash32_hash32, hash32_unhash32, Primitives.unhash64_hash64, Primitives.hash64_unhash64,
    ⟨hash32_injective, hash32_unhash32.surjective⟩,
    ⟨Primitives.unhash64_hash64.injective, Primitives.hash64_unhash64.surjective⟩, ?_⟩
  exact {
    trichotomous := fun d s h h' => by
      by_contra hne
      exact (prior_total d.2 s.2 fun heq => hne (Subtype.ext heq)).elim h h'
    irrefl := fun d h => prior_asymm h h
    trans := fun d s t h h' => by
      rw [prior_iff] at h h' ⊢
      exact h.trans h' }

/-- All vertices are visited. -/
theorem mem_visitOrder : v ∈ visitOrder G ↔ v < G.n := by
  rw [visitOrder, List.mem_mergeSort, List.mem_range]

/-- The vertices are visited by their priority. -/
theorem visitOrder_sorted (hn : G.n < 2 ^ 32) : (visitOrder G).Pairwise (prior G) := by
  have hle (u v : ℕ) : decide (¬prior G v u) = true ↔ rank G u ≤ rank G v := by
    rw [decide_eq_true_iff, prior_iff, not_lt]
  have hsorted : (visitOrder G).Pairwise fun u v => decide (¬prior G v u) = true := by
    refine List.pairwise_mergeSort (fun u v w h h' => ?_) (fun u v => ?_) _
    · rw [hle] at h h' ⊢
      exact h.trans h'
    · rw [Bool.or_eq_true, hle, hle]
      exact le_total _ _
  have hnodup : (visitOrder G).Nodup := (List.mergeSort_perm _ _).nodup_iff.mpr List.nodup_range
  refine (hsorted.and hnodup).imp_of_mem fun hu hv h => ?_
  have hu' := (mem_visitOrder.mp hu).trans hn
  have hv' := (mem_visitOrder.mp hv).trans hn
  exact (prior_total hu' hv' h.2).resolve_right (of_decide_eq_true h.1)

/-- The neighbours are the ends of the edges. -/
theorem mem_neighbours (hv : v < G.n) : u ∈ neighbours G v ↔ G.Edge v u := by
  have hle := CSR.outOffset_le hv
  rw [neighbours, List.mem_map]
  constructor
  · rintro ⟨i, hi, rfl⟩
    rw [List.mem_range'_1, CSR.degree] at hi
    exact ⟨hv, i, ⟨hi.1, by omega⟩, rfl⟩
  · rintro ⟨_, i, hi, rfl⟩
    refine ⟨i, ?_, rfl⟩
    rw [List.mem_range'_1, CSR.degree]
    exact ⟨hi.1, by have := hi.2; omega⟩

/-- The sequential colouring gives every vertex the least colour that no neighbour before it has. -/
theorem exists_color (hn : G.n < 2 ^ 32) (hv : v < G.n) : ∃ c, sequentialGreedy G v = some c ∧
    IsLeast {c | ∀ u ∈ neighbours G v, u ∈ visitOrder G → prior G u v → sequentialGreedy G u ≠ some c} c :=
  FirstFit.coloring_isLeast (visitOrder_sorted hn) (fun _ _ => prior_asymm) (mem_visitOrder.mpr hv)

/-- The sequential colouring gives every vertex its colour. -/
theorem sequentialGreedy_eq (hn : G.n < 2 ^ 32) (hv : v < G.n) : sequentialGreedy G v = some (chosen G v) := by
  obtain ⟨c, hc, _⟩ := exists_color hn hv
  rw [chosen, hc]
  rfl

/-- A vertex takes the least colour that no neighbour before it has. -/
theorem chosen_isLeast (hn : G.n < 2 ^ 32) (hv : v < G.n) :
    IsLeast {c | ∀ u, G.Edge v u → prior G u v → chosen G u ≠ c} (chosen G v) := by
  obtain ⟨c, hc, hleast⟩ := exists_color hn hv
  have hchosen : chosen G v = c := by
    rw [chosen, hc]
    rfl
  have hset : {c | ∀ u, G.Edge v u → prior G u v → chosen G u ≠ c} =
      {c | ∀ u ∈ neighbours G v, u ∈ visitOrder G → prior G u v → sequentialGreedy G u ≠ some c} := by
    refine Set.ext fun c => forall_congr' fun u => ?_
    rw [mem_neighbours hv, mem_visitOrder]
    constructor
    · intro h hedge hu hprior heq
      rw [sequentialGreedy_eq hn hu] at heq
      exact h hedge hprior (Option.some.inj heq)
    · intro h hedge hprior heq
      refine h hedge hedge.lt hprior ?_
      rw [sequentialGreedy_eq hn hedge.lt, heq]
  rw [hset, hchosen]
  exact hleast

/-- A colour is at most the degree. -/
theorem chosen_le_degree (hn : G.n < 2 ^ 32) (hv : v < G.n) : chosen G v ≤ G.degree v := by
  obtain ⟨c, hc, hfree⟩ := CSR.exists_value_le_degree (G := G) (fun i => chosen G (G.outEdge i)) v
  refine ((chosen_isLeast hn hv).2 ?_).trans hc
  rintro u ⟨_, i, hi, rfl⟩ _
  exact hfree i hi

/-- Neighbours take different colours. -/
theorem chosen_ne (hn : G.n < 2 ^ 32) (hsymm : G.Symmetric) (hedge : G.Edge u v) (hne : u ≠ v) :
    chosen G u ≠ chosen G v := by
  have hu : u < G.n := hedge.1
  have hv : v < G.n := hedge.lt
  rcases prior_total (hu.trans hn) (hv.trans hn) hne with hprior | hprior
  · exact (chosen_isLeast hn hv).1 u (hsymm.edge hedge) hprior
  · exact ((chosen_isLeast hn hu).1 v hedge hprior).symm

end Coloring

end ToggleTree
