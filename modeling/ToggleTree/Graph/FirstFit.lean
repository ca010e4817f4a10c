import Mathlib.Data.Fintype.EquivFin
import Mathlib.Order.Bounds.Basic
import Mathlib.Tactic

/-!
# First-fit colourings

The vertices are visited in a fixed order, and each takes the least colour that no coloured
neighbour has. What a vertex takes depends only on the neighbours that come before it.
-/

namespace FirstFit

/-- Some colour is free. -/
theorem exists_free (used : List ℕ) : ∃ c, c ∉ used := by
  obtain ⟨c, hc⟩ := Infinite.exists_notMem_finset used.toFinset
  exact ⟨c, fun h => hc (List.mem_toFinset.mpr h)⟩

/-- The least colour that is not used. -/
def smallestFree (used : List ℕ) : ℕ := Nat.find (exists_free used)

/-- The smallest free colour is the least colour that is not used. -/
theorem isLeast_smallestFree (used : List ℕ) : IsLeast {c | c ∉ used} (smallestFree used) :=
  ⟨Nat.find_spec (exists_free used), fun _ h => Nat.find_min' (exists_free used) h⟩

/-- The vertices visited before `v` are those that come before it. -/
theorem mem_visited {V : Type} {before : V → V → Prop} {l r : List V} {u v : V}
    (hsorted : (l ++ v :: r).Pairwise before) (hasymm : ∀ u v, before u v → ¬before v u) :
    u ∈ l ↔ u ∈ l ++ v :: r ∧ before u v := by
  obtain ⟨_, hrest, hcross⟩ := List.pairwise_append.mp hsorted
  constructor
  · exact fun hu => ⟨List.mem_append.mpr (Or.inl hu), hcross u hu v List.mem_cons_self⟩
  · rintro ⟨hu, hbefore⟩
    rcases List.mem_append.mp hu with hu | hu
    · exact hu
    · rcases List.mem_cons.mp hu with rfl | hu
      · exact absurd hbefore (hasymm u u hbefore)
      · exact absurd ((List.pairwise_cons.mp hrest).1 u hu) (hasymm u v hbefore)

variable {V : Type} [DecidableEq V] (neighbours : V → List V)

/-- Give `v` the least colour that none of its coloured neighbours has. -/
def visit (color : V → Option ℕ) (v : V) : V → Option ℕ :=
  Function.update color v (some (smallestFree ((neighbours v).filterMap color)))

/-- Visit the vertices of `order` one after another. -/
def coloring (order : List V) : V → Option ℕ := order.foldl (visit neighbours) fun _ => none

variable {neighbours} {order : List V} {before : V → V → Prop}

/-- A vertex that is not visited keeps its colour. -/
theorem foldl_of_notMem {color : V → Option ℕ} {l : List V} {v : V} (h : v ∉ l) :
    l.foldl (visit neighbours) color v = color v := by
  induction l generalizing color with
  | nil => rfl
  | cons u l ih =>
    rw [List.mem_cons, not_or] at h
    rw [List.foldl_cons, ih h.2]
    exact Function.update_of_ne h.1 _ _

/-- A vertex that has been visited keeps its colour, and the others have none. -/
theorem coloring_visited {l r : List V} (horder : order = l ++ r) (hnodup : order.Nodup) (v : V) :
    coloring neighbours l v = if v ∈ l then coloring neighbours order v else none := by
  subst horder
  split
  · next h =>
    rw [coloring, coloring, List.foldl_append]
    exact (foldl_of_notMem fun hr => List.disjoint_of_nodup_append hnodup h hr).symm
  · next h => exact foldl_of_notMem h

/-- Every vertex has the least colour that no neighbour before it has. -/
theorem coloring_isLeast (hsorted : order.Pairwise before) (hasymm : ∀ u v, before u v → ¬before v u) {v : V}
    (hv : v ∈ order) : ∃ c, coloring neighbours order v = some c ∧
      IsLeast {c | ∀ u ∈ neighbours v, u ∈ order → before u v → coloring neighbours order u ≠ some c} c := by
  have hne {u v : V} (h : before u v) : u ≠ v := by
    rintro rfl
    exact hasymm u u h h
  have hnodup : order.Nodup := hsorted.imp hne
  obtain ⟨l, r, rfl⟩ := List.append_of_mem hv
  have hmem (u : V) : u ∈ l ↔ u ∈ l ++ v :: r ∧ before u v := mem_visited hsorted hasymm
  have hcolor : coloring neighbours (l ++ v :: r) v =
      some (smallestFree ((neighbours v).filterMap (coloring neighbours l))) := by
    have hv' : v ∉ r := (List.nodup_cons.mp (List.nodup_append.mp hnodup).2.1).1
    rw [coloring, List.foldl_append, List.foldl_cons, foldl_of_notMem hv']
    exact Function.update_self _ _ _
  refine ⟨_, hcolor, ?_⟩
  have hfree :
    {c | ∀ u ∈ neighbours v, u ∈ l ++ v :: r → before u v → coloring neighbours (l ++ v :: r) u ≠ some c} =
      {c | c ∉ (neighbours v).filterMap (coloring neighbours l)} := by
    refine Set.ext fun c => ?_
    change (∀ u ∈ neighbours v, _) ↔ c ∉ (neighbours v).filterMap (coloring neighbours l)
    rw [List.mem_filterMap]
    push Not
    refine forall₂_congr fun u _ => ?_
    rw [coloring_visited (r := v :: r) rfl hnodup u]
    by_cases hu : u ∈ l
    · rw [if_pos hu]
      exact ⟨fun h => h ((hmem u).mp hu).1 ((hmem u).mp hu).2, fun h _ _ => h⟩
    · rw [if_neg hu]
      exact ⟨fun _ => (Option.some_ne_none c).symm, fun _ hu' hbefore => absurd ((hmem u).mpr ⟨hu', hbefore⟩) hu⟩
  rw [hfree]
  exact isLeast_smallestFree _

end FirstFit
