import ToggleTree.Graph.Symmetric

/-!
# Cores of a graph

A set of vertices is a `k`-core if each of its vertices has at least `k` slots into the set; larger
sets have more slots, so a vertex with fewer than `k` slots into a set that contains all `k`-cores is
in none of them. The coreness of a vertex is the largest `k` such that it is in a `k`-core.
-/

namespace ToggleTree

namespace KCore

/-- The number of slots of `v` that name a vertex of `S`. -/
def degreeInto (G : CSR) (S : Finset ℕ) (v : ℕ) : ℕ :=
  {i ∈ Finset.Ico (G.outOffset v) (G.outOffset (v + 1)) | G.outEdge i ∈ S}.card

/-- Every vertex of `H` has at least `k` slots into `H`. -/
def IsCore (G : CSR) (k : ℕ) (H : Finset ℕ) : Prop := ∀ v ∈ H, v < G.n ∧ k ≤ degreeInto G H v

/-- `k` is the largest number such that `v` is in a `k`-core. -/
def IsCoreness (G : CSR) (v k : ℕ) : Prop := IsGreatest {k | ∃ H, IsCore G k H ∧ v ∈ H} k

variable {G : CSR} {S H : Finset ℕ} {v k l : ℕ}

/-- A vertex has at most its degree many edges into a set. -/
theorem degreeInto_le_degree (S : Finset ℕ) (v : ℕ) : degreeInto G S v ≤ G.degree v := by
  refine (Finset.card_filter_le _ _).trans ?_
  rw [Nat.card_Ico]
  exact le_rfl

/-- A core of a greater number is a core of a lesser one. -/
theorem IsCore.mono (h : IsCore G k H) (hle : l ≤ k) : IsCore G l H :=
  fun v hv => ⟨(h v hv).1, hle.trans (h v hv).2⟩

/-- A vertex of the largest `k`-core that is in no larger core. -/
theorem isCoreness_of_mem (h : IsCore G k S) (hv : v ∈ S) (hlarger : ∀ H, IsCore G (k + 1) H → v ∉ H) :
    IsCoreness G v k := by
  refine ⟨⟨S, h, hv⟩, ?_⟩
  rintro l ⟨H, hH, hmem⟩
  by_contra hlt
  exact hlarger H (hH.mono (by omega)) hmem

/-- All vertices together, each with all its slots. -/
theorem degreeInto_range (hv : v < G.n) : degreeInto G (Finset.range G.n) v = G.degree v := by
  rw [degreeInto, Finset.filter_true_of_mem, Nat.card_Ico]
  · rfl
  · exact fun i hi => Finset.mem_range.mpr (CSR.outEdge_lt hv (CSR.mem_slots.mp hi))

/-- What the slots of a core contribute to a count. -/
theorem IsCore.le_countTo (hsymm : G.Symmetric) (h : IsCore G k H) (hv : v ∈ H) :
    k ≤ G.countTo (∑ u ∈ H, G.slots u) v := by
  rw [hsymm.countTo_eq (fun u hu => (h u hu).1) (h v hv).1]
  exact (h v hv).2

end KCore

end ToggleTree
