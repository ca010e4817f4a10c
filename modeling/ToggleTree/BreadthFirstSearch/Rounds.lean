import ToggleTree.BreadthFirstSearch.SearchRound

/-!
# Rounds that touch each vertex once

In most parallel phases of the sparse and dense modes, the call for a vertex writes the cell of
that vertex and moves that vertex between the sets. Such a phase ends in a state that can be
named beforehand: its protocol says that every component is on the way to that state and stays
there once it has arrived.
-/

namespace ToggleTree

open ForkJoin ForkJoin.Prog

namespace Search

variable {G : CSR} {s₀ t s s' : SearchState} {v x : ℕ} {env : SearchCall → SearchProg Unit} {β : Type}
  {Q : β → SearchState → ℕ → Prop} {f : ℕ → SearchProg Unit}

/-- Each component of `s` is as in the start `s₀` or as in the end `t`. -/
structure Towards (s₀ t s : SearchState) : Prop where
  frontier : s.frontier = t.frontier
  dist : ∀ v, s.dist v = s₀.dist v ∨ s.dist v = t.dist v
  next_ge : s₀.nextFrontier ⊆ s.nextFrontier
  next_le : s.nextFrontier ⊆ t.nextFrontier
  active_le : s.active ⊆ s₀.active
  active_ge : t.active ⊆ s.active

/-- The components of `v` are as in the end `t`. -/
structure Arrived (t : SearchState) (v : ℕ) (s : SearchState) : Prop where
  dist : s.dist v = t.dist v
  next : v ∈ t.nextFrontier → v ∈ s.nextFrontier
  active : v ∈ s.active → v ∈ t.active

/-- What has arrived stays. -/
def towardsProtocol (s₀ t : SearchState) : Protocol SearchState ℕ where
  inv s _ := Towards s₀ t s
  rel s s' := (∀ v, s.dist v = t.dist v → s'.dist v = t.dist v) ∧ s.nextFrontier ⊆ s'.nextFrontier ∧
    s'.active ⊆ s.active
  refl _ := ⟨fun _ h => h, Finset.Subset.refl _, Finset.Subset.refl _⟩
  trans h h' := ⟨fun v hv => h'.1 v (h.1 v hv), h.2.1.trans h'.2.1, h'.2.2.trans h.2.2⟩

/-- What has arrived stays so. -/
theorem Arrived.mono (h : Arrived t v s) (hrel : (towardsProtocol s₀ t).rel s s') : Arrived t v s' :=
  ⟨hrel.1 v h.dist, fun hv => hrel.2.1 (h.next hv), fun hv => h.active (hrel.2.2 hv)⟩

/-- Writing the last value of a cell. -/
theorem towards_write {next : Unit → SearchProg β} (hx : t.dist v = x)
    (hnext : ∀ s', (towardsProtocol s₀ t).rel s s' → s'.dist v = t.dist v →
      Ensures (towardsProtocol s₀ t) env Q (next ()) s' 0) :
    Ensures (towardsProtocol s₀ t) env Q (atomicWrite (cell v) x >>= next) s 0 := by
  refine Ensures.modify fun s₁ o hrel hinv => ?_
  have hdist (w : ℕ) : ((cell v).put x s₁).dist w = if w = v then t.dist v else s₁.dist w := by
    change Function.update s₁.dist v x w = _
    rw [Function.update_apply, hx]
  have hstep : (towardsProtocol s₀ t).rel s₁ ((cell v).put x s₁) := by
    refine ⟨fun w hw => ?_, Finset.Subset.refl _, Finset.Subset.refl _⟩
    rw [hdist]
    split
    · next h => rw [h]
    · exact hw
  refine ⟨0, hstep, ⟨hinv.frontier, fun w => ?_, hinv.next_ge, hinv.next_le, hinv.active_le, hinv.active_ge⟩, ?_⟩
  · rw [hdist]
    split
    · next h => exact Or.inr (h ▸ rfl)
    · exact hinv.dist w
  · refine hnext _ ((towardsProtocol s₀ t).trans hrel hstep) ?_
    rw [hdist, if_pos rfl]

/-- Inserting a vertex that the end has in the next frontier. -/
theorem towards_insert {next : Bool → SearchProg β} (hv : v ∈ t.nextFrontier)
    (hnext : ∀ b s', (towardsProtocol s₀ t).rel s s' → v ∈ s'.nextFrontier →
      Ensures (towardsProtocol s₀ t) env Q (next b) s' 0) :
    Ensures (towardsProtocol s₀ t) env Q (VertexSet.insert nextFrontier v >>= next) s 0 := by
  refine Ensures.act fun s₁ o hrel hinv => ?_
  have hstep : (towardsProtocol s₀ t).rel s₁ (nextFrontier.put (insert v s₁.nextFrontier) s₁) :=
    ⟨fun _ h => h, Finset.subset_insert _ _, Finset.Subset.refl _⟩
  refine ⟨0, hstep, ⟨hinv.frontier, hinv.dist, ?_, ?_, hinv.active_le, hinv.active_ge⟩, ?_⟩
  · exact hinv.next_ge.trans (Finset.subset_insert _ _)
  · exact Finset.insert_subset hv hinv.next_le
  · exact hnext _ _ ((towardsProtocol s₀ t).trans hrel hstep) (Finset.mem_insert_self _ _)

/-- Removing a vertex that the end does not have among the active ones. -/
theorem towards_remove {next : Bool → SearchProg β} (hv : v ∉ t.active)
    (hnext : ∀ b s', (towardsProtocol s₀ t).rel s s' → v ∉ s'.active →
      Ensures (towardsProtocol s₀ t) env Q (next b) s' 0) :
    Ensures (towardsProtocol s₀ t) env Q (VertexSet.remove active v >>= next) s 0 := by
  refine Ensures.act fun s₁ o hrel hinv => ?_
  have hstep : (towardsProtocol s₀ t).rel s₁ (active.put (s₁.active.erase v) s₁) :=
    ⟨fun _ h => h, Finset.Subset.refl _, Finset.erase_subset _ _⟩
  refine ⟨0, hstep, ⟨hinv.frontier, hinv.dist, hinv.next_ge, hinv.next_le, ?_, ?_⟩, ?_⟩
  · exact (Finset.erase_subset _ _).trans hinv.active_le
  · exact Finset.subset_erase.mpr ⟨hinv.active_ge, hv⟩
  · exact hnext _ _ ((towardsProtocol s₀ t).trans hrel hstep) (Finset.notMem_erase _ _)

/-- A call ends once its vertex has arrived. -/
theorem towards_ret (h : ∀ s', (towardsProtocol s₀ t).rel s s' → Towards s₀ t s' → Arrived t v s') :
    Ensures (towardsProtocol s₀ t) env (fun _ s b => Arrived t v s ∧ b = 0) (ret ()) s 0 :=
  Ensures.ret fun s' _ hrel hinv => ⟨0, hinv, h s' hrel hinv, rfl⟩

/-- If the start and the end differ only at the vertices of `S` and the call for each of them makes
it arrive, the phase ends in `t`. -/
theorem towards_end {S : Finset ℕ} (hsame : ∀ v ∉ S, Arrived t v s₀) (h : Towards s₀ t s)
    (harrived : ∀ v ∈ S, Arrived t v s) : s = t := by
  have hall (v : ℕ) : Arrived t v s := by
    by_cases hv : v ∈ S
    · exact harrived v hv
    · obtain ⟨h₁, h₂, h₃⟩ := hsame v hv
      refine ⟨(h.dist v).elim (fun he => he.trans h₁) id, fun hw => h.next_ge (h₂ hw),
        fun hw => h₃ (h.active_le hw)⟩
  have hactive : s.active = t.active :=
    Finset.Subset.antisymm (fun v hv => (hall v).active hv) h.active_ge
  have hnext : s.nextFrontier = t.nextFrontier :=
    Finset.Subset.antisymm h.next_le fun v hv => (hall v).next hv
  have hdist : s.dist = t.dist := funext fun v => (hall v).dist
  cases s
  cases t
  obtain rfl := hactive
  obtain rfl := hnext
  obtain rfl := hdist
  obtain rfl := h.frontier
  rfl

/-- The start of a phase that ends in `t`. -/
structure Starts (s₀ t : SearchState) (S : Finset ℕ) : Prop where
  frontier : s₀.frontier = t.frontier
  next : s₀.nextFrontier ⊆ t.nextFrontier
  active : t.active ⊆ s₀.active
  same : ∀ v ∉ S, Arrived t v s₀

/-- The start of a round is on the way to its end. -/
theorem Starts.towards {S : Finset ℕ} (h : Starts s₀ t S) : Towards s₀ t s₀ :=
  ⟨h.frontier, fun _ => Or.inl rfl, Finset.Subset.refl _, h.next, Finset.Subset.refl _, h.active⟩

/-- A phase over the frontier, which is emptied. -/
theorem total_consumeFrontier (hstart : Starts { s with frontier := ∅ } t s.frontier)
    (hf : ∀ v ∈ s.frontier, Ensures (towardsProtocol { s with frontier := ∅ } t) env
      (fun _ s b => Arrived t v s ∧ b = 0) (f v) { s with frontier := ∅ } 0) :
    Total env (fun _ s' => s' = t) (VertexSet.consumeEach frontier f) s := by
  have hzero : ∑ _v ∈ s.frontier, (0 : ℕ) = 0 := Finset.sum_const_zero
  refine (VertexSet.total_consumeEach (c := frontier) (Q := Arrived t)
    (P := towardsProtocol { s with frontier := ∅ } t) rfl (fun _ => 0) hstart.towards
    (fun v s s' hrel h => h.mono hrel) hf).mono ?_
  rintro _ s' ⟨_, hinv, harrived⟩
  exact towards_end hstart.same hinv harrived

/-- A phase over the active vertices. -/
theorem total_forEachActive (hstart : Starts s t s.active)
    (hf : ∀ v ∈ s.active, Ensures (towardsProtocol s t) env (fun _ s b => Arrived t v s ∧ b = 0) (f v) s 0) :
    Total env (fun _ s' => s' = t) (VertexSet.forEach active f) s := by
  refine (VertexSet.total_forEach (c := active) (Q := Arrived t) (P := towardsProtocol s t)
    (fun _ => 0) hstart.towards (fun v s s' hrel h => h.mono hrel) hf).mono ?_
  rintro _ s' ⟨_, hinv, harrived⟩
  exact towards_end hstart.same hinv harrived

/-- While no vertex is removed, the first in-slot naming an inactive vertex does not depend on the
schedule. -/
theorem towards_firstInactive (hv : v < G.n) (hsame : t.active = s₀.active) :
    Ensures (towardsProtocol s₀ t) env
      (fun found _ b => Ensures.FirstIndex (fun i => G.inEdge i ∉ s₀.active) (G.inOffset v) (G.inOffset (v + 1))
        found ∧ b = 0) (firstInactive G v) s 0 := by
  refine Ensures.findFor (CSR.inOffset_le hv) fun i s₁ _ _ _ => ?_
  refine Ensures.read fun s₂ o _ hinv => Ensures.ret fun _ _ _ hinv' => ⟨0, hinv', ?_, rfl⟩
  have hactive : s₂.active = s₀.active := Finset.Subset.antisymm hinv.active_le (hsame ▸ hinv.active_ge)
  change (!decide (G.inEdge i ∈ s₂.active)) = true ↔ _
  rw [hactive]
  simp

section Heads

variable {L : Labels} {source unreached : ℕ} {goal : ℕ → ℕ} {r u : ℕ}

/-- The cells hold the goals below `r`, and nothing else is reached. -/
def Below (L : Labels) (unreached : ℕ) (goal : ℕ → ℕ) (r : ℕ) (s : SearchState) : Prop :=
  ∀ v, s.dist v = if L.level (goal v) < r then goal v else unreached

/-- The active vertices are those at a distance of at least `r`. -/
def ActiveFrom (G : CSR) (L : Labels) (goal : ℕ → ℕ) (r : ℕ) (s : SearchState) : Prop :=
  ∀ v, v ∈ s.active ↔ v < G.n ∧ ¬Before L goal r v

/-- The head of a dense iteration. -/
structure DenseHead (G : CSR) (L : Labels) (unreached : ℕ) (goal : ℕ → ℕ) (r : ℕ) (s : SearchState) : Prop where
  frontier : s.frontier = ∅
  next : s.nextFrontier = ∅
  active : ActiveFrom G L goal r s
  below : Below L unreached goal r s
  pos : 1 ≤ r

/-- The result array after the cells of the vertices at distance `r` got their goals. -/
def settle (L : Labels) (goal : ℕ → ℕ) (r : ℕ) (dist : ℕ → ℕ) (v : ℕ) : ℕ :=
  if At L goal r v then goal v else dist v

/-- A vertex of the round settles. -/
theorem settle_at (dist : ℕ → ℕ) (hv : At L goal r v) : settle L goal r dist v = goal v := if_pos hv

/-- A vertex of another round keeps its value. -/
theorem settle_not_at (dist : ℕ → ℕ) (hv : ¬At L goal r v) : settle L goal r dist v = dist v := if_neg hv

/-- Below the next round is exact up to this one. -/
theorem Below.exact (h : Below L unreached goal (r + 1) s) : Exact L unreached goal r s := by
  intro v
  rw [h v]
  exact if_congr Nat.lt_succ_iff rfl rfl

/-- The active vertices after those at distance `r` were removed. -/
theorem ActiveFrom.sdiff {S : Finset ℕ} (h : ActiveFrom G L goal r s) (hS : ∀ v, v ∈ S ↔ At L goal r v) :
    ActiveFrom G L goal (r + 1) { s with active := s.active \ S } := by
  intro v
  rw [Finset.mem_sdiff, h v, hS v]
  unfold Before At
  constructor
  · rintro ⟨⟨hlt, hnot⟩, hat⟩
    exact ⟨hlt, fun h => (Nat.lt_succ_iff_lt_or_eq.mp h.1).elim (fun h' => hnot ⟨h', h.2⟩) fun h' =>
      hat ⟨h', h.2⟩⟩
  · rintro ⟨hlt, hnot⟩
    exact ⟨⟨hlt, fun h => hnot ⟨by omega, h.2⟩⟩, fun h => hnot ⟨by omega, h.2⟩⟩

/-- The empty test at the start of an iteration. -/
theorem total_ifEmpty {S : Finset ℕ} {Q : Unit → SearchState → Prop} {p : SearchProg Unit}
    (hdone : (∀ v, v ∉ S) → Q () s) (hrest : S.Nonempty → Total env Q p s) :
    Total env Q (if decide (S = ∅) = true then ret () else p) s := by
  by_cases h : S = ∅
  · rw [decide_eq_true h, if_pos rfl]
    exact Total.ret (hdone fun v hv => by rw [h] at hv; exact Finset.notMem_empty v hv)
  · rw [decide_eq_false h, if_neg Bool.false_ne_true]
    exact hrest (Finset.nonempty_iff_ne_empty.mpr h)

variable (hL : Labelling G L source unreached goal)
include hL

/-- Settling the vertices at distance `r` makes the cells right up to there. -/
theorem Below.settle (h : Below L unreached goal r s) :
    Below L unreached goal (r + 1) { s with dist := settle L goal r s.dist } := by
  intro v
  change Search.settle L goal r s.dist v = _
  by_cases hat : At L goal r v
  · rw [settle_at _ hat, if_pos (by have := hat.1; omega)]
  · rw [settle_not_at _ hat, h v]
    by_cases hlt : L.level (goal v) < r
    · rw [if_pos hlt, if_pos (by omega)]
    · rw [if_neg hlt]
      by_cases heq : L.level (goal v) = r
      · rw [if_pos (by omega)]
        refine (hL.goal_unreached v ?_).symm
        by_contra htop
        exact hat ⟨heq, not_le.mp htop⟩
      · rw [if_neg (by omega)]

/-- If no vertex is at distance `r`, the search is finished. -/
theorem Below.finished (h : Below L unreached goal r s) (hnone : ∀ v, ¬At L goal r v) (v : ℕ) :
    s.dist v = goal v := by
  rcases Nat.eq_zero_or_pos r with rfl | hpos
  · refine (hnone source ⟨hL.level_source, ?_⟩).elim
    rw [hL.level_source]
    decide
  · have hexact : Exact L unreached goal (r - 1) s := by
      refine Below.exact ?_
      rwa [Nat.sub_add_cancel hpos]
    exact hexact.finished hL (by omega) hnone v

/-- The vertices at distance `r` are active if all from `r` on are. -/
theorem ActiveFrom.mem (h : ActiveFrom G L goal r s) (hv : At L goal r v) : v ∈ s.active :=
  (h v).mpr ⟨hL.goal_lt v hv.2, fun hb => absurd hv.1 hb.1.ne⟩

/-- The active out-neighbours of the vertices at distance `r` are those at the next distance. -/
theorem at_of_edge (hactive : ActiveFrom G L goal (r + 1) s) (hu : At L goal r u) (hedge : G.Edge u v)
    (hv : v ∈ s.active) : At L goal (r + 1) v := by
  obtain ⟨hle, htop⟩ := level_le_of_edge hL hedge hu.2
  rw [hu.1] at hle
  have hnot := ((hactive v).mp hv).2
  refine ⟨le_antisymm hle ?_, htop⟩
  by_contra hlt
  exact hnot ⟨not_le.mp hlt, htop⟩

/-- What the scan of the in-slots of `v` tells about its distance. -/
structure Closest (G : CSR) (L : Labels) (goal : ℕ → ℕ) (r v : ℕ) (found : Option ℕ) : Prop where
  some_at : ∀ i, found = some i → At L goal r v ∧ G.InSlot v i ∧ At L goal (r - 1) (G.inEdge i) ∧
    ∀ j, G.inOffset v ≤ j → j < i → ¬At L goal (r - 1) (G.inEdge j)
  none_at : found = none → ¬At L goal r v

/-- An active vertex has an in-neighbour that is not active exactly if it is at distance `r`, and the
first one found is the first one at the distance before. -/
theorem towards_closest (hT : G.Transposed) (hr : 1 ≤ r) (hactive : ActiveFrom G L goal r s₀)
    (hv : v ∈ s₀.active) (hsame : t.active = s₀.active) :
    Ensures (towardsProtocol s₀ t) env (fun found _ b => Closest G L goal r v found ∧ b = 0)
      (firstInactive G v) s 0 := by
  obtain ⟨hlt, hnot⟩ := (hactive v).mp hv
  -- An in-neighbour that is not active is closer to the source.
  have hbefore : ∀ i, G.InSlot v i → (G.inEdge i ∉ s₀.active ↔ Before L goal r (G.inEdge i)) := by
    intro i hi
    rw [hactive (G.inEdge i)]
    have := CSR.inEdge_lt hlt hi
    tauto
  have hedge : ∀ i, G.InSlot v i → G.Edge (G.inEdge i) v := fun i hi => (hT _ v).mpr ⟨hlt, i, hi, rfl⟩
  refine (towards_firstInactive hlt hsame).mono ?_
  rintro found _ _ ⟨hfound, rfl⟩
  refine ⟨⟨fun i hi => ?_, fun hnone hat => ?_⟩, rfl⟩
  · obtain ⟨h₁, h₂, hout, hfirst⟩ := (hfound.some_iff i).mp hi
    have hclose := (hbefore i ⟨h₁, h₂⟩).mp hout
    obtain ⟨hle, htop⟩ := level_le_of_edge hL (hedge i ⟨h₁, h₂⟩) hclose.2
    have hge : r ≤ L.level (goal v) := not_lt.mp fun h => hnot ⟨h, htop⟩
    have hlevel := hclose.1
    refine ⟨⟨by omega, htop⟩, ⟨h₁, h₂⟩, ⟨by omega, hclose.2⟩, fun j hj hji hat => ?_⟩
    have hslot : G.InSlot v j := ⟨hj, hji.trans h₂⟩
    have hlevel' := hat.1
    exact hfirst j hj hji ((hbefore j hslot).mpr ⟨by omega, hat.2⟩)
  · obtain ⟨hlevel, htop⟩ := hat
    have hne : v ≠ source := by
      rintro rfl
      rw [hL.level_source] at hlevel
      omega
    obtain ⟨u, hu, hlu, _⟩ := hL.goal_eq v hne htop
    obtain ⟨_, i, hi, rfl⟩ := (hT u v).mp hu
    exact hfound.none_iff.mp hnone i hi.1 hi.2 ((hbefore i hi).mpr ⟨by omega, by omega⟩)

end Heads

end Search

end ToggleTree
