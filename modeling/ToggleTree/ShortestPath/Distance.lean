import ToggleTree.Graph.CSR

/-!
# Distances in 32 bits

Distances are 32-bit words of which the largest stands for everything that is too far. A sum that
would exceed it is replaced by it before the addition is made.
-/

namespace ToggleTree

namespace ShortestPath

/-- The type of the distances. -/
abbrev Distance := Fin (2 ^ 32)

/-- There are values of 32 bits. -/
instance words_neZero : NeZero (2 ^ 32) := ⟨by norm_num⟩

/-- A sum modulo `2 ^ 32` has 32 bits. -/
theorem sum_mod_lt (x : Distance) (w : ℕ) : (x.val + w) % 2 ^ 32 < 2 ^ 32 := Nat.mod_lt _ (by norm_num)

/-- The sum of a distance and a weight, or the largest distance where the sum would exceed it. -/
def extended (x : Distance) (w : ℕ) : Distance :=
  if 2 ^ 32 - 1 - w < x.val then ⊤ else ⟨(x.val + w) % 2 ^ 32, sum_mod_lt x w⟩

/-- An extended distance is cut off at the greatest value. -/
theorem val_extended (x : Distance) {w : ℕ} (hw : w < 2 ^ 32) :
    (extended x w).val = min (x.val + w) (2 ^ 32 - 1) := by
  unfold extended
  split
  · next h =>
    rw [Fin.val_top, min_eq_right (by omega)]
  · next h =>
    have hle : x.val + w ≤ 2 ^ 32 - 1 := by omega
    rw [min_eq_left hle]
    exact Nat.mod_eq_of_lt (by omega)

/-- The greatest value is not extended. -/
theorem extended_top (w : ℕ) (hw : w < 2 ^ 32) : extended ⊤ w = ⊤ := by
  refine Fin.ext ?_
  rw [val_extended _ hw, Fin.val_top, min_eq_right (by omega)]

/-- Extending keeps the order. -/
theorem extended_mono {x y : Distance} {w : ℕ} (hw : w < 2 ^ 32) (h : x ≤ y) : extended x w ≤ extended y w := by
  rw [Fin.le_def, val_extended _ hw, val_extended _ hw]
  exact min_le_min_right _ (Nat.add_le_add_right h w)

section Goal

variable {G : CSR} {source s i : ℕ}

/-- The distance that the search is to find. -/
noncomputable def goal (G : CSR) (source v : ℕ) : Distance :=
  ⟨Arcs.saturate (2 ^ 32 - 1) (G.weightedDistance source v),
    (Arcs.saturate_le _ _).trans_lt (Nat.sub_lt (by norm_num) one_pos)⟩

/-- A distance below the greatest value is the goal. -/
theorem val_goal_of_lt {v d : ℕ} (hd : G.weightedDistance source v = d) (hlt : d < 2 ^ 32 - 1) :
    (goal G source v).val = d := by
  change Arcs.saturate (2 ^ 32 - 1) (G.weightedDistance source v) = d
  rw [hd, Arcs.saturate_coe, min_eq_left hlt.le]

/-- A distance from the greatest value on has the greatest value as its goal. -/
theorem val_goal_of_le {v : ℕ} (hfar : ∀ d : ℕ, G.weightedDistance source v = d → 2 ^ 32 - 1 ≤ d) :
    (goal G source v).val = 2 ^ 32 - 1 := by
  change Arcs.saturate (2 ^ 32 - 1) (G.weightedDistance source v) = 2 ^ 32 - 1
  by_cases htop : G.weightedDistance source v = ⊤
  · rw [htop, Arcs.saturate_top]
  · obtain ⟨d, hd⟩ := ENat.ne_top_iff_exists.mp htop
    rw [← hd, Arcs.saturate_coe, min_eq_right (hfar d hd.symm)]

/-- Distances that are not too small, and not too large where there is a path, are right. -/
theorem eq_goal_of_le {dist : ℕ → Distance} (hsound : ∀ v, goal G source v ≤ dist v)
    (hle : ∀ v (d : ℕ), G.weightedDistance source v = d → (dist v).val ≤ d) (v : ℕ) :
    dist v = goal G source v := by
  refine le_antisymm ?_ (hsound v)
  change (dist v).val ≤ Arcs.saturate (2 ^ 32 - 1) (G.weightedDistance source v)
  have hmax : (dist v).val ≤ 2 ^ 32 - 1 := by
    have := (dist v).isLt
    omega
  by_cases hfar : G.weightedDistance source v = ⊤
  · rw [hfar, Arcs.saturate_top]
    exact hmax
  · obtain ⟨d, hd⟩ := ENat.ne_top_iff_exists.mp hfar
    rw [← hd, Arcs.saturate_coe]
    exact le_min (hle v d hd.symm) hmax

/-- What an edge offers is not more than its exact length. -/
theorem val_le_of_le_extended {x y : Distance} {w c : ℕ} (hw : w < 2 ^ 32) (h : y ≤ extended x w)
    (hx : x.val ≤ c) :
    y.val ≤ c + w := by
  rw [Fin.le_def, val_extended _ hw] at h
  exact (h.trans (min_le_left _ _)).trans (Nat.add_le_add_right hx w)

/-- Where no edge offers less, no path does. -/
theorem val_le_of_settled {dist : ℕ → Distance} (hstart : dist source = 0)
    (hsettled : ∀ u i, G.OutSlot u i → dist (G.outEdge i) ≤ extended (dist u) (G.weightedOutEdge i).2) {v c k : ℕ}
    (walk : Arcs.Walk G.WeightedEdge source v c k) : (dist v).val ≤ c := by
  induction walk with
  | nil => rw [hstart]; exact le_rfl
  | @snoc u v c w k _ arc ih =>
    obtain ⟨_, i, hi, heq⟩ := arc
    have hle := val_le_of_le_extended (G.weightedOutEdge_snd_lt i) (hsettled u i hi) ih
    have hv : G.outEdge i = v := congrArg Prod.fst heq
    have hw : (G.weightedOutEdge i).2 = w := congrArg Prod.snd heq
    rwa [hv, hw] at hle

/-- What lies outside of the graph is not reached. -/
theorem goal_eq_top (hsource : source < G.n) (hs : ¬s < G.n) : goal G source s = ⊤ := by
  have htop : G.weightedDistance source s = ⊤ := Arcs.distance_eq_top_iff.mpr fun c k hwalk =>
    hs (Finset.mem_range.mp (hwalk.mem (Finset.mem_range.mpr hsource) fun u v w h => Finset.mem_range.mpr h.lt))
  refine Fin.ext ?_
  change Arcs.saturate (2 ^ 32 - 1) (G.weightedDistance source s) = 2 ^ 32 - 1
  rw [htop, Arcs.saturate_top]

/-- An offer through a distance that is not too small is not too small. -/
theorem goal_le_extended (hsource : source < G.n) {x : Distance} (hx : goal G source s ≤ x) (hi : G.OutSlot s i) :
    goal G source (G.outEdge i) ≤ extended x (G.weightedOutEdge i).2 := by
  have hw := G.weightedOutEdge_snd_lt i
  by_cases hs : s < G.n
  · have hedge : G.WeightedEdge s (G.outEdge i) (G.weightedOutEdge i).2 := ⟨hs, i, hi, rfl⟩
    have hle : (goal G source (G.outEdge i)).val ≤ (goal G source s).val + (G.weightedOutEdge i).2 :=
      Arcs.saturate_distance_le_add hedge
    have htop : (goal G source (G.outEdge i)).val ≤ 2 ^ 32 - 1 := Arcs.saturate_le _ _
    rw [Fin.le_def, val_extended _ hw]
    exact le_min (hle.trans (Nat.add_le_add_right hx _)) htop
  · rw [goal_eq_top hsource hs, top_le_iff] at hx
    rw [hx, extended_top _ hw]
    exact le_top

/-- The distances that a search starts with. -/
theorem goal_le_start (v : ℕ) : goal G source v ≤ Function.update (fun _ => (⊤ : Distance)) source 0 v := by
  by_cases hv : v = source
  · rw [hv, Function.update_self, Fin.le_def]
    change Arcs.saturate (2 ^ 32 - 1) (G.weightedDistance source source) ≤ 0
    rw [CSR.weightedDistance, Arcs.distance_self, Arcs.saturate_zero]
  · rw [Function.update_of_ne hv]
    exact le_top

/-- A vertex that is too far offers nothing. -/
theorem start_settled {v : ℕ} (hv : v ≠ source) (i : ℕ) (x : Distance) :
    x ≤ extended (Function.update (fun _ => (⊤ : Distance)) source 0 v) (G.weightedOutEdge i).2 := by
  rw [Function.update_of_ne hv, extended_top _ (G.weightedOutEdge_snd_lt i)]
  exact le_top

end Goal

end ShortestPath

end ToggleTree
