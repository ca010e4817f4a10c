import ToggleTree.KCore.Start

/-!
# The decomposition is exact

An iteration of the inner loop leaves fewer vertices, and one of the outer loop raises `k`, which stays
below the degrees. When no vertex is active, every vertex has got its coreness.
-/

namespace ToggleTree

open ForkJoin ForkJoin.Prog

namespace KCore

section

variable {G : CSR} {workers k noReduce : ℕ} {s : KCoreState} (hG : Input G workers)

/-- Every vertex has got its coreness. -/
def Decomposed (G : CSR) (s : KCoreState) : Prop := ∀ v < G.n, IsCoreness G v (s.coreness v)

include hG

/-- The outer loop, when the inner loop returns for all larger `k`. -/
theorem total_coreLoop (h : Round G workers k s) (hfrontier : s.frontier = ∅)
    (hlarger : ∀ k' noReduce' t, k < k' → k' < 2 ^ 32 → Round G workers k' t →
      Total (kCoreProcedures G workers) (fun _ u => Decomposed G u)
        (kCoreProcedures G workers (.rounds k' noReduce'))
        t) :
    Total (kCoreProcedures G workers) (fun _ u => Decomposed G u)
      (kCoreProcedures G workers (.loop k noReduce)) s := by
  refine Total.read ?_
  by_cases hempty : active.get s = ∅
  · rw [if_pos (decide_eq_true hempty)]
    refine Total.ret fun v hv => h.done v hv fun hmem => ?_
    rw [show s.active = ∅ from hempty] at hmem
    exact Finset.notMem_empty v hmem
  · rw [if_neg fun h => hempty (of_decide_eq_true h)]
    refine (throughout_nextLevel hG h hfrontier hempty).total.bind fun k' t hraised => ?_
    refine (throughout_fillFrontier hG hraised.level).total.bind fun noReduce' u hround => ?_
    refine Total.invoke (hlarger k' noReduce' u hraised.lt ?_ hround.1)
    obtain ⟨v, hv⟩ := Finset.nonempty_iff_ne_empty.mpr hempty
    have hv' : v ∈ t.active := by
      rw [hraised.active]
      exact hv
    have hlt := (hraised.level.bound v hv').1
    exact ((hraised.level.le v hv').trans (left_le_degree hG.symm hlt)).trans_lt (hG.degree_lt v hlt)

/-- The inner loop, when the outer loop returns for the same `k`. -/
theorem total_coreRounds (h : Round G workers k s)
    (hloop : ∀ t, Round G workers k t → t.frontier = ∅ →
      Total (kCoreProcedures G workers) (fun _ u => Decomposed G u)
        (kCoreProcedures G workers (.loop k noReduce)) t) :
    Total (kCoreProcedures G workers) (fun _ u => Decomposed G u)
      (kCoreProcedures G workers (.rounds k noReduce)) s := by
  induction hn : s.active.card + s.frontier.card using Nat.strong_induction_on generalizing s with
  | _ n ih =>
    refine Total.read ?_
    by_cases hempty : frontier.get s = ∅
    · rw [if_pos (decide_eq_true hempty)]
      exact Total.invoke (hloop s h hempty)
    · rw [if_neg fun h => hempty (of_decide_eq_true h)]
      refine (throughout_peelFrontier hG h hempty).total.bind fun _ t hpeel => ?_
      refine (throughout_settleFrontier hG h hempty hpeel).total.bind ?_
      rintro _ u ⟨hround, hle, _⟩
      refine Total.invoke (ih _ ?_ hround rfl)
      have hdisjoint : Disjoint u.active u.frontier :=
        Finset.disjoint_left.mpr fun v hv hv' => hround.disjoint v hv' hv
      have hcard := Finset.card_le_card (show u.active ∪ u.frontier ⊆ s.active from fun v hv =>
        hle v (Finset.mem_union.mp hv))
      rw [Finset.card_union_of_disjoint hdisjoint] at hcard
      have hpos : 0 < s.frontier.card := Finset.card_pos.mpr (Finset.nonempty_iff_ne_empty.mpr hempty)
      omega

/-- The loops end with the decomposition. -/
theorem total_loops (h : Round G workers k s) :
    Total (kCoreProcedures G workers) (fun _ u => Decomposed G u)
      (kCoreProcedures G workers (.rounds k noReduce)) s := by
  induction hd : 2 ^ 32 - k using Nat.strong_induction_on generalizing k s noReduce with
  | _ d ih =>
    refine total_coreRounds hG h fun t ht hfrontier => ?_
    refine total_coreLoop hG ht hfrontier fun k' noReduce' u hlt hbound hu => ?_
    exact ih (2 ^ 32 - k') (by omega) hu rfl

/-- The decomposition comes to an end and returns the coreness of every vertex. -/
theorem total_kCoreDecomposition (s : KCoreState) :
    Total (kCoreProcedures G workers) (fun coreness _ => ∀ v < G.n, IsCoreness G v (coreness v))
      (kCoreDecomposition G workers) s := by
  refine (total_initialise hG s).bind fun _ t ht => ?_
  refine Total.bind (Q := fun _ u => Decomposed G u) ?_ fun _ u hu => Total.atom (Total.ret hu)
  refine Total.invoke (total_coreLoop hG ht.1.1 ht.1.2 fun k' noReduce' u _ _ hu => total_loops hG hu)

end

/-- With any number of workers, all runs return, and every vertex has got the largest `k` such that it
is in a set in which every vertex has at least `k` slots into the set; so that the result is the one
with a single worker, which counts no vertex in shards. -/
theorem kCoreDecomposition_exact (G : CSR) (workers : ℕ) (hsymm : G.Symmetric)
    (hdegree : ∀ v < G.n, G.degree v < 2 ^ 32) (hworkers : 1 ≤ workers) (hmax : workers ≤ 8192) (s : KCoreState) :
    Total (kCoreProcedures G workers)
      (fun coreness _ =>
        (∀ v < G.n, IsGreatest {k | ∃ H : Finset ℕ, (∀ u ∈ H, u < G.n ∧ k ≤ degreeInto G H u) ∧ v ∈ H}
          (coreness v)) ∧
        ∀ s' t coreness', Steps (kCoreProcedures G 1) (kCoreDecomposition G 1) s' (ret coreness') t →
          ∀ v < G.n, coreness' v = coreness v)
      (kCoreDecomposition G workers) s := by
  refine (total_kCoreDecomposition ⟨hsymm, hdegree, hworkers, hmax⟩ s).mono fun coreness _ h => ⟨h, ?_⟩
  intro s' t coreness' run v hv
  have hone : Input G 1 := ⟨hsymm, hdegree, Nat.one_pos, by norm_num⟩
  exact ((total_kCoreDecomposition hone s').result run v hv).unique (h v hv)

/-- Two vertices with 8193 edges between them, which two workers count in shards. -/
theorem kCoreDecomposition_exact_parallelEdges :
    (∀ v < 2, sampleThreshold 2 < (CSR.parallelEdges 8193).degree v) ∧
      Total (kCoreProcedures (CSR.parallelEdges 8193) 2)
        (fun coreness _ => ∀ v < 2, IsCoreness (CSR.parallelEdges 8193) v (coreness v))
        (kCoreDecomposition (CSR.parallelEdges 8193) 2)
          ⟨fun _ => 0, ∅, ∅, ∅, ∅, ∅, fun _ => 0, fun _ _ => 0, 0⟩ := by
  have hdegree : ∀ v < (CSR.parallelEdges 8193).n, (CSR.parallelEdges 8193).degree v < 2 ^ 32 := fun v _ => by
    rw [CSR.degree_parallelEdges]
    norm_num
  refine ⟨fun v _ => ?_, ?_⟩
  · rw [CSR.degree_parallelEdges]
    decide
  · exact (kCoreDecomposition_exact _ 2 (CSR.symmetric_parallelEdges 8193) hdegree (by decide) (by decide) _).mono
      fun _ _ h => h.1

end KCore

end ToggleTree
