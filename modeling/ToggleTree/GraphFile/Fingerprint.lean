import ToggleTree.GraphFile.Sorted

/-!
# The fingerprint

Every edge adds the hash of its ends in one order and subtracts it in the other. In a graph that
has every edge in both directions the two sums are the same. The converse fails: the weights are
not hashed, and hashes can cancel.
-/

namespace ToggleTree

open Checked Primitives

namespace GraphFile

/-- The neighbour and the weight of an edge; without weights every edge counts 1. -/
def unpackEdge (weighted : Bool) (e : ℕ) : ℕ × ℕ := (lo32 e, if weighted then hi32 e else 1)

/-- The number of edges of `u` with a property. -/
def edgeCount (o f : ℕ → ℕ) (p : ℕ → Prop) [DecidablePred p] (u : ℕ) : ℕ :=
  ((Finset.Ico (o u) (o (u + 1))).filter fun i => p (f i)).card

/-- Every edge can be used in both directions with the same weight. -/
def SymmetricEdges (weighted : Bool) (n : ℕ) (o f : ℕ → ℕ) : Prop :=
  ∀ u < n, ∀ v < n, ∀ w,
    edgeCount o f (fun e => unpackEdge weighted e = (v, w)) u =
      edgeCount o f (fun e => unpackEdge weighted e = (u, w)) v

section Fingerprint

variable {G : GraphData} {n m u v : ℕ} {o f : ℕ → ℕ} {weighted : Bool}

/-- What an edge adds to the fingerprint. -/
def edgeHash (u v : ℕ) : Word := hash64 (BitVec.ofNat 64 (glue32 u v)) - hash64 (BitVec.ofNat 64 (glue32 v u))

/-- The fingerprint of the edges. -/
def fingerprint (n : ℕ) (o f : ℕ → ℕ) : Word :=
  ∑ u ∈ Finset.Ico 0 n, ∑ i ∈ Finset.Ico (o u) (o (u + 1)), edgeHash u (lo32 (f i))

/-- The test of the file compares the fingerprint with 0. -/
theorem isFileSymmetrized_eq (hoffsets : IsOffsets G.outOffsets G.n m o) (hedges : Contents G.outEdges m f) :
    isFileSymmetrized G = some (fingerprint G.n o f == 0) := by
  unfold isFileSymmetrized
  have hvertex : ∀ u, 0 ≤ u → u < G.n → (do
      let first ← G.outOffsets[u]?
      let last ← G.outOffsets[u + 1]?
      reduce (· + ·) 0 1024 first last fun i => do
        let e ← G.outEdges[i]?
        let v := lo32 e
        some (hash64 (BitVec.ofNat 64 (glue32 u v)) - hash64 (BitVec.ofNat 64 (glue32 v u)))) =
      some (∑ i ∈ Finset.Ico (o u) (o (u + 1)), edgeHash u (lo32 (f i))) := by
    intro u _ hu
    have hle := hoffsets.le_last (u := u + 1) (by omega)
    refine (bind_eq_of_eq (hoffsets.contents.get u (by omega)) _).trans ?_
    refine (bind_eq_of_eq (hoffsets.contents.get (u + 1) (by omega)) _).trans ?_
    exact reduce_add 1024 (hoffsets.le u hu) fun i _ hi => bind_eq_of_eq (hedges.get i (by omega)) _
  exact bind_eq_of_eq (reduce_add 1024 (Nat.zero_le _) hvertex) _

/-- The edges to `v`, weight by weight. -/
theorem edgeCount_target (v u : ℕ) (W : Finset ℕ)
    (hW : ∀ i, o u ≤ i → i < o (u + 1) → (unpackEdge weighted (f i)).2 ∈ W) :
    edgeCount o f (fun e => lo32 e = v) u = ∑ w ∈ W,
      edgeCount o f (fun e => unpackEdge weighted e = (v, w)) u := by
  unfold edgeCount
  rw [Finset.card_eq_sum_card_fiberwise (f := fun i => (unpackEdge weighted (f i)).2) (t := W)]
  · refine Finset.sum_congr rfl fun w _ => congrArg Finset.card ?_
    ext i
    simp only [Finset.mem_filter, unpackEdge, Prod.mk.injEq, and_assoc]
  · intro i hi
    have hmem := Finset.mem_Ico.mp (Finset.mem_filter.mp hi).1
    exact hW i hmem.1 hmem.2

/-- The edges of a symmetric graph without their weights. -/
theorem SymmetricEdges.targets (h : SymmetricEdges weighted n o f) (hu : u < n) (hv : v < n) :
    edgeCount o f (fun e => lo32 e = v) u = edgeCount o f (fun e => lo32 e = u) v := by
  have hmem (t i : ℕ) (hi : o t ≤ i) (hi' : i < o (t + 1)) (ht : t = u ∨ t = v) : (unpackEdge weighted (f i)).2 ∈
      (Finset.Ico (o u) (o (u + 1)) ∪ Finset.Ico (o v) (o (v + 1))).image fun i =>
        (unpackEdge weighted (f i)).2 := by
    refine Finset.mem_image_of_mem _ (Finset.mem_union.mpr ?_)
    rcases ht with rfl | rfl
    · exact Or.inl (Finset.mem_Ico.mpr ⟨hi, hi'⟩)
    · exact Or.inr (Finset.mem_Ico.mpr ⟨hi, hi'⟩)
  rw [edgeCount_target v u _ fun i hi hi' => hmem u i hi hi' (Or.inl rfl),
    edgeCount_target u v _ fun i hi hi' => hmem v i hi hi' (Or.inr rfl)]
  exact Finset.sum_congr rfl fun w _ => h u hu v hv w

/-- A sum over the edges of a vertex, target by target. -/
theorem sum_targets {M : Type} [AddCommMonoid M] (F : ℕ → M)
    (htarget : ∀ i, o u ≤ i → i < o (u + 1) → lo32 (f i) < n) :
    ∑ i ∈ Finset.Ico (o u) (o (u + 1)), F (lo32 (f i)) =
      ∑ v ∈ Finset.range n, edgeCount o f (fun e => lo32 e = v) u • F v := by
  rw [← Finset.sum_fiberwise_of_maps_to (s := Finset.Ico (o u) (o (u + 1))) (t := Finset.range n)
    (g := fun i => lo32 (f i))]
  · refine Finset.sum_congr rfl fun v _ => ?_
    rw [edgeCount, Finset.card_eq_sum_ones, Finset.sum_smul]
    refine Finset.sum_congr rfl fun i hi => ?_
    rw [(Finset.mem_filter.mp hi).2, one_smul]
  · intro i hi
    have hmem := Finset.mem_Ico.mp hi
    exact Finset.mem_range.mpr (htarget i hmem.1 hmem.2)

/-- The fingerprint of a symmetric graph is zero. -/
theorem fingerprint_of_symmetric (h : SymmetricEdges weighted n o f)
    (htarget : ∀ u < n, ∀ i, o u ≤ i → i < o (u + 1) → lo32 (f i) < n) : fingerprint n o f = 0 := by
  have hsum : fingerprint n o f = ∑ u ∈ Finset.range n, ∑ v ∈ Finset.range n,
      edgeCount o f (fun e => lo32 e = v) u • edgeHash u v := by
    rw [fingerprint, ← Finset.range_eq_Ico]
    exact Finset.sum_congr rfl fun u hu => sum_targets (edgeHash u) (htarget u (Finset.mem_range.mp hu))
  have hswap : ∑ u ∈ Finset.range n, ∑ v ∈ Finset.range n,
      edgeCount o f (fun e => lo32 e = v) u • hash64 (BitVec.ofNat 64 (glue32 v u)) =
        ∑ u ∈ Finset.range n, ∑ v ∈ Finset.range n,
          edgeCount o f (fun e => lo32 e = v) u • hash64 (BitVec.ofNat 64 (glue32 u v)) := by
    rw [Finset.sum_comm]
    refine Finset.sum_congr rfl fun u hu => Finset.sum_congr rfl fun v hv => ?_
    rw [h.targets (Finset.mem_range.mp hv) (Finset.mem_range.mp hu)]
  have hsplit : ∑ u ∈ Finset.range n, ∑ v ∈ Finset.range n, edgeCount o f (fun e => lo32 e = v) u • edgeHash u v =
      ∑ u ∈ Finset.range n, ∑ v ∈ Finset.range n,
        edgeCount o f (fun e => lo32 e = v) u • hash64 (BitVec.ofNat 64 (glue32 u v)) -
      ∑ u ∈ Finset.range n, ∑ v ∈ Finset.range n,
        edgeCount o f (fun e => lo32 e = v) u • hash64 (BitVec.ofNat 64 (glue32 v u)) := by
    simp only [edgeHash, smul_sub, Finset.sum_sub_distrib]
  rw [hsum, hsplit, hswap, sub_self]

end Fingerprint

end GraphFile

end ToggleTree
