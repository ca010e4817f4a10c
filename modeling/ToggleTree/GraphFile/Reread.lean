import ToggleTree.GraphFile.Fingerprint
import ToggleTree.GraphFile.RoundTrip

/-!
# Loading a graph that was written

The fingerprint of a symmetric graph is zero and its sorted lists are left alone, so loading it
gives back every array.
-/

namespace ToggleTree

open Checked Primitives

namespace GraphFile

variable {G : GraphData} {weighted : Bool}

/-- The offsets of a well-formed graph. -/
theorem WellFormed.isOffsets (h : WellFormed G weighted) :
    IsOffsets G.outOffsets G.n G.m fun i => G.outOffsets.getD i 0 :=
  ⟨h.offsets, h.offset_zero, h.offset_le, h.offset_last⟩

/-- Converting an edge to its own kind leaves it. -/
theorem convertEdge_self (weighted : Bool) : convertEdge weighted weighted = id := by
  cases weighted <;> rfl

/-- Loading the file of a graph with sorted lists and fingerprint zero. -/
theorem readGraph_of_fingerprint (R : Runtime) (h : WellFormed G weighted)
    (hsorted : SortedLists G.n (fun i => G.outOffsets.getD i 0) fun i => G.outEdges.getD i 0)
    (hfingerprint : isFileSymmetrized G = some true) (hinOffsets : G.inOffsets = #[]) (hinEdges : G.inEdges = #[])
    (mapped : Bool)
    {fuel : ℕ} (hfuel : 1 ≤ fuel) : readGraph R true weighted mapped fuel (fileOf G weighted) = some G := by
  obtain ⟨H, hread, hback⟩ := readBinaryFormat_eq weighted h (R.schedules 7) R.uninit mapped R.fresh
  obtain rfl : H = G := by
    have hedges := hback.outEdges
    rw [convertEdge_self, Array.map_id] at hedges
    have hins := hback.inOffsets.trans hinOffsets.symm
    have hins' := hback.inEdges.trans hinEdges.symm
    obtain ⟨hn, hm, houts, -, -, -⟩ := hback
    cases H
    cases G
    simp_all only
  have hkeep := makeSorted_of_sorted R weighted hfuel h.isOffsets h.edges hsorted
  unfold readGraph
  refine (bind_eq_of_eq hread _).trans ((bind_eq_of_eq hfingerprint _).trans ?_)
  exact bind_eq_of_eq hkeep _

/-- Loading the file of a symmetric graph with sorted lists. -/
theorem readGraph_fileOf (R : Runtime) (h : WellFormed G weighted)
    (hsorted : SortedLists G.n (fun i => G.outOffsets.getD i 0) fun i => G.outEdges.getD i 0)
    (hsymmetric : SymmetricEdges weighted G.n (fun i => G.outOffsets.getD i 0) fun i => G.outEdges.getD i 0)
    (hinOffsets : G.inOffsets = #[]) (hinEdges : G.inEdges = #[]) (mapped : Bool) {fuel : ℕ} (hfuel : 1 ≤ fuel) :
    readGraph R true weighted mapped fuel (fileOf G weighted) = some G := by
  refine readGraph_of_fingerprint R h hsorted ?_ hinOffsets hinEdges mapped hfuel
  rw [isFileSymmetrized_eq h.isOffsets h.edges, fingerprint_of_symmetric hsymmetric, beq_self_eq_true]
  intro u hu i _ hi
  exact h.target_lt i (hi.trans_le (h.isOffsets.le_last (u := u + 1) (by omega)))

/-- What was written is read back in both ways, with or without weights, and a symmetric graph is loaded
as it was. -/
theorem readGraph_writeGraph (R : Runtime) (schedules : ℕ → Schedule) (uninit : ℕ) (h : WellFormed G weighted)
    (hsorted : SortedLists G.n (fun i => G.outOffsets.getD i 0) fun i => G.outEdges.getD i 0) :
    ∃ file, writeGraph schedules uninit weighted G = some file ∧
      (∀ (schedules' : ℕ → Schedule) (uninit' : ℕ) (weighted' mapped : Bool) (fresh : Byte),
        ∃ H, readBinaryFormat schedules' uninit' weighted' mapped fresh file = some H ∧ H.n = G.n ∧ H.m = G.m ∧
          H.outOffsets = G.outOffsets ∧ H.outEdges = G.outEdges.map (convertEdge weighted weighted')) ∧
      (SymmetricEdges weighted G.n (fun i => G.outOffsets.getD i 0) (fun i => G.outEdges.getD i 0) →
        G.inOffsets = #[] → G.inEdges = #[] →
          ∀ mapped fuel, 1 ≤ fuel → readGraph R true weighted mapped fuel file = some G) := by
  refine ⟨fileOf G weighted, writeGraph_eq h schedules uninit,
    fun schedules' uninit' weighted' mapped fresh => ?_,
    fun hsymmetric hinOffsets hinEdges mapped fuel hfuel =>
      readGraph_fileOf R h hsorted hsymmetric hinOffsets hinEdges mapped hfuel⟩
  obtain ⟨H, hread, hback⟩ := readBinaryFormat_eq weighted' h schedules' uninit' mapped fresh
  exact ⟨H, hread, hback.n, hback.m, hback.outOffsets, hback.outEdges⟩

/-- An edge with weight 7, in both directions. -/
def oneEdge : GraphData := ⟨2, 2, #[0, 1, 2], #[7 * 2 ^ 32 + 1, 7 * 2 ^ 32], #[], #[]⟩

/-- The graph with one edge is well formed. -/
theorem wellFormed_oneEdge : WellFormed oneEdge true :=
  ⟨by decide, by decide, by decide, by decide, by decide, by decide, by decide, by decide, by decide⟩

/-- The graph with one edge is symmetric. -/
theorem symmetric_oneEdge :
    SymmetricEdges true oneEdge.n (fun i => oneEdge.outOffsets.getD i 0) fun i => oneEdge.outEdges.getD i 0 := by
  intro u hu v hv w
  have hu' : u < 2 := hu
  have hv' : v < 2 := hv
  interval_cases u <;> interval_cases v <;> simp [edgeCount, oneEdge, unpackEdge, lo32, hi32,
    Finset.filter_singleton] <;>
    split_ifs <;> rfl

/-- One edge is written and loaded. -/
theorem readGraph_writeGraph_oneEdge :
    ∃ file, writeGraph (fun _ => Schedule.ascending) 0 true oneEdge = some file ∧
      ∀ mapped, readGraph Runtime.sequential true true mapped 1 file = some oneEdge := by
  have hsorted : SortedLists oneEdge.n (fun i => oneEdge.outOffsets.getD i 0) fun i =>
    oneEdge.outEdges.getD i 0 := by
    intro u hu i hi hi'
    have hu' : u < 2 := hu
    interval_cases u <;> simp [oneEdge] at hi hi' <;> omega
  obtain ⟨file, hwrite, -, hread⟩ :=
    readGraph_writeGraph Runtime.sequential (fun _ => Schedule.ascending) 0 wellFormed_oneEdge hsorted
  exact ⟨file, hwrite, fun mapped => hread symmetric_oneEdge rfl rfl mapped 1 le_rfl⟩

end GraphFile

end ToggleTree
