import ToggleTree.BreadthFirstSearch.Distance

/-!
# The breadth-first search tree

The cells hold a distance above a parent, and the smallest parent wins. In a sparse round every
frontier vertex offers itself and the minimum stays; in a dense round the in-lists are scanned
in ascending order, so the first offer is the smallest; in a local search an offer of a larger
parent never replaces a smaller one.
-/

namespace ToggleTree

open ForkJoin ForkJoin.Prog

namespace Search

variable {G : CSR} {source : ℕ} {goal : ℕ → ℕ} {q r stride : ℕ} {s₀ s s' t : SearchState} {u v : ℕ}
  {env : SearchCall → SearchProg Unit}

/-- The upper half of a glued word. -/
theorem hi32_glue32 {hi lo : ℕ} (hhi : hi < 2 ^ 32) (hlo : lo < 2 ^ 32) : hi32 (glue32 hi lo) = hi := by
  rw [glue32_eq hhi hlo, hi32_eq]
  omega

/-- The smallest in-neighbour that is one closer to the source. -/
noncomputable def parentOf (G : CSR) (source v : ℕ) : ℕ :=
  sInf {u | G.Edge u v ∧ hopGoal G source u + 1 = hopGoal G source v}

/-- The distance from the source above the parent. -/
noncomputable def treeGoal (G : CSR) (source v : ℕ) : ℕ :=
  if v = source then glue32 0 (2 ^ 32 - 1)
  else if hopGoal G source v < topLevel then glue32 (hopGoal G source v) (parentOf G source v)
  else 2 ^ 64 - 1

section Goals

variable (hsize : G.n < 2 ^ 32) (hsource : source < G.n)
include hsize hsource

/-- A reached vertex other than the source has a parent. -/
theorem isLeast_parentOf (hne : v ≠ source) (hv : hopGoal G source v < topLevel) :
    IsLeast {u | G.Edge u v ∧ hopGoal G source u + 1 = hopGoal G source v} (parentOf G source v) := by
  obtain ⟨u, hedge, hu, _⟩ := (labelling_distances hsize hsource).goal_eq v hne hv
  exact ⟨Nat.sInf_mem ⟨u, hedge, hu⟩, fun w hw => Nat.sInf_le hw⟩

/-- The final value of a vertex that is reached is its distance over its parent. -/
theorem treeGoal_eq (hne : v ≠ source) (hv : hopGoal G source v < topLevel) :
    treeGoal G source v = hopGoal G source v * 2 ^ 32 + parentOf G source v := by
  have hp := (isLeast_parentOf hsize hsource hne hv).1.1.1
  have hv' : hopGoal G source v < 2 ^ 32 - 1 := hv
  rw [treeGoal, if_neg hne, if_pos hv, glue32_eq (by omega) (by omega)]

/-- The level of the final value is the distance. -/
theorem level_treeGoal (v : ℕ) : hi32 (treeGoal G source v) = hopGoal G source v := by
  by_cases hne : v = source
  · subst hne
    rw [treeGoal, if_pos rfl, hopGoal, CSR.hopDistance, Arcs.distance_self, Arcs.saturate_zero]
    exact hi32_glue32 (by decide) (by decide)
  · by_cases hv : hopGoal G source v < topLevel
    · have hp := (isLeast_parentOf hsize hsource hne hv).1.1.1
      rw [treeGoal_eq hsize hsource hne hv, hi32_eq]
      omega
    · have htop : hopGoal G source v ≤ topLevel := Arcs.saturate_le _ _
      rw [treeGoal, if_neg hne, if_neg hv, le_antisymm htop (not_lt.mp hv)]
      decide

/-- Distances above parents label the cells of `breadth_first_search_tree`. -/
theorem labelling_distancesAndParents :
    Labelling G (distancesAndParents G) source (2 ^ 64 - 1) (treeGoal G source) := by
  have hL := labelling_distances hsize hsource
  have hlevel := level_treeGoal (G := G) hsize hsource
  have hle (v : ℕ) : hopGoal G source v ≤ topLevel := Arcs.saturate_le _ _
  refine ⟨hsize, hsource, fun a b hab => ?_, fun x p hx hp => hi32_glue32 hx hp,
    (by decide : hi32 (2 ^ 64 - 1) = topLevel), fun v => ?_, fun v hv => ?_,
      (hlevel source).trans hL.level_source,
    fun v hv => hL.goal_lt v ((hlevel v) ▸ hv), fun u v x hedge hx hx' => ?_, fun v hne hv => ?_⟩
  · change hi32 a ≤ hi32 b
    rw [hi32_eq, hi32_eq]
    exact Nat.div_le_div_right hab
  · by_cases hne : v = source
    · rw [treeGoal, if_pos hne]
      decide
    · by_cases hv : hopGoal G source v < topLevel
      · have hp := (isLeast_parentOf hsize hsource hne hv).1.1.1
        rw [treeGoal_eq hsize hsource hne hv]
        unfold topLevel at hv
        omega
      · rw [treeGoal, if_neg hne, if_neg hv]
  · have hv' : topLevel ≤ hopGoal G source v := hlevel v ▸ hv
    have hne : v ≠ source := by
      rintro rfl
      have := hL.level_source
      change hopGoal G v v = 0 at this
      rw [this] at hv'
      exact absurd hv' (by decide)
    rw [treeGoal, if_neg hne, if_neg (not_lt.mpr hv')]
  · change treeGoal G source v ≤ glue32 (x + 1) u
    have hu : u < G.n := hedge.1
    have hx₁ : hopGoal G source u ≤ x := hlevel u ▸ hx
    rw [glue32_eq hx' (by omega)]
    by_cases hne : v = source
    · rw [treeGoal, if_pos hne, glue32_eq (by decide) (by decide)]
      omega
    · have hx₂ : hopGoal G source v ≤ x + 1 := hL.goal_le u v x hedge hx₁ hx'
      by_cases hv : hopGoal G source v < topLevel
      · have hparent := isLeast_parentOf hsize hsource hne hv
        have hp := hparent.1.1.1
        rw [treeGoal_eq hsize hsource hne hv]
        rcases Nat.eq_or_lt_of_le hx₂ with heq | hlt
        · by_cases hux : hopGoal G source u = x
          · have hleast := hparent.2 ⟨hedge, by omega⟩
            omega
          · have := hL.goal_le u v (hopGoal G source u) hedge le_rfl (by omega)
            change hopGoal G source v ≤ hopGoal G source u + 1 at this
            omega
        · omega
      · have := hle u
        obtain ⟨_, htop⟩ :=
          level_le_of_edge hL hedge (show hopGoal G source u < topLevel by unfold topLevel; omega)
        exact (hv htop).elim
  · have hv' : hopGoal G source v < topLevel := hlevel v ▸ hv
    have hparent := (isLeast_parentOf hsize hsource hne hv').1
    refine ⟨_, hparent.1, ?_, ?_⟩
    · change hi32 _ + 1 = hi32 _
      rw [hlevel, hlevel]
      exact hparent.2
    · change treeGoal G source v = glue32 (hi32 (treeGoal G source v)) _
      rw [hlevel, treeGoal, if_neg hne, if_pos hv']

end Goals

end Search

end ToggleTree
