import ToggleTree.BreadthFirstSearch.Parent

/-!
# Breadth-first search computes its tree

The heads of the main loop of `breadth_first_search_tree`, whose frontier lags behind by one
distance, and the result.
-/

namespace ToggleTree

open ForkJoin ForkJoin.Prog

namespace Search

variable {G : CSR} {source unreached : ℕ} {goal : ℕ → ℕ} {q r stride : ℕ} {s₀ s s' t : SearchState} {u v : ℕ}
  {env : SearchCall → SearchProg Unit}

/-- The invariant of a sparse round that started in `s₀` and offers distance `q + 1`. The cells of the
vertices of `t` were lowered, and the vertices are about to be moved. -/
structure OfferInv (G : CSR) (goal : ℕ → ℕ) (q : ℕ) (s₀ s : SearchState) (t : Multiset ℕ) : Prop where
  frontier : s.frontier = ∅
  lower : ∀ v, goal v ≤ s.dist v
  same : ∀ v, ¬At (distancesAndParents G) goal (q + 1) v → s.dist v = s₀.dist v
  active_le : s.active ⊆ s₀.active
  active_ge : ∀ v ∈ s₀.active, ¬At (distancesAndParents G) goal (q + 1) v → v ∈ s.active
  moved : ∀ v, At (distancesAndParents G) goal (q + 1) v →
    s.dist v = s₀.dist v ∨ v ∉ s.active ∧ v ∈ s.nextFrontier ∨ v ∈ t
  fresh : ∀ v, v ∈ s.nextFrontier ∨ v ∈ t → At (distancesAndParents G) goal (q + 1) v

/-- Cells only fall, and no vertex becomes active. -/
def offerProtocol (G : CSR) (goal : ℕ → ℕ) (q : ℕ) (s₀ : SearchState) : Protocol SearchState (Multiset ℕ) where
  inv := OfferInv G goal q s₀
  rel s s' := (∀ v, s'.dist v ≤ s.dist v) ∧ s'.active ⊆ s.active
  refl _ := ⟨fun _ => le_rfl, Finset.Subset.refl _⟩
  trans h h' := ⟨fun v => (h'.1 v).trans (h.1 v), h'.2.trans h.2⟩

namespace OfferInv

variable {m : Multiset ℕ}

/-- A better value in the entry of a vertex keeps the invariant, with the removal owed. -/
theorem lower_cell {x : ℕ} (h : OfferInv G goal q s₀ s m) (hv : At (distancesAndParents G) goal (q + 1) v)
    (hx : goal v ≤ x) : OfferInv G goal q s₀ ((cell v).put x s) ({v} + m) := by
  refine ⟨h.frontier, fun w => ?_, fun w hw => ?_, h.active_le, h.active_ge, fun w hw => ?_, fun w hw => ?_⟩
  · rcases eq_or_ne w v with rfl | hne
    · rwa [dist_put_self]
    · rw [dist_put_of_ne hne]
      exact h.lower w
  · have hne : w ≠ v := by
      rintro rfl
      exact hw hv
    rw [dist_put_of_ne hne]
    exact h.same w hw
  · rcases eq_or_ne w v with rfl | hne
    · exact Or.inr (Or.inr (Multiset.mem_add.mpr (Or.inl (Multiset.mem_singleton_self w))))
    · rw [dist_put_of_ne hne]
      exact (h.moved w hw).imp id (Or.imp id fun hmem => Multiset.mem_add.mpr (Or.inr hmem))
  · rcases hw with hw | hw
    · exact h.fresh w (Or.inl hw)
    · rcases Multiset.mem_add.mp hw with hw | hw
      · rwa [Multiset.mem_singleton.mp hw]
      · exact h.fresh w (Or.inr hw)

/-- Removing a vertex from the active ones keeps the invariant. -/
theorem remove (h : OfferInv G goal q s₀ s m) (hv : At (distancesAndParents G) goal (q + 1) v) :
    OfferInv G goal q s₀ (active.put (s.active.erase v) s) m := by
  refine ⟨h.frontier, h.lower, h.same, (Finset.erase_subset _ _).trans h.active_le, fun w hw hne => ?_,
    fun w hw => ?_, h.fresh⟩
  · refine Finset.mem_erase.mpr ⟨?_, h.active_ge w hw hne⟩
    rintro rfl
    exact hne hv
  · exact (h.moved w hw).imp id (Or.imp (And.imp (fun hnot hmem => hnot (Finset.mem_of_mem_erase hmem)) id) id)

/-- The owed insertion into the next frontier keeps the invariant. -/
theorem insert (h : OfferInv G goal q s₀ s ({v} + m)) (hv : v ∉ s.active) :
    OfferInv G goal q s₀ (nextFrontier.put (insert v s.nextFrontier) s) m := by
  refine ⟨h.frontier, h.lower, h.same, h.active_le, h.active_ge, fun w hw => ?_, fun w hw => ?_⟩
  · rcases h.moved w hw with hmem | hmem | hmem
    · exact Or.inl hmem
    · exact Or.inr (Or.inl ⟨hmem.1, Finset.mem_insert_of_mem hmem.2⟩)
    · rcases Multiset.mem_add.mp hmem with hmem | hmem
      · obtain rfl := Multiset.mem_singleton.mp hmem
        exact Or.inr (Or.inl ⟨hv, Finset.mem_insert_self w _⟩)
      · exact Or.inr (Or.inr hmem)
  · rcases hw with hw | hw
    · rcases Finset.mem_insert.mp hw with rfl | hw
      · exact h.fresh w (Or.inr (Multiset.mem_add.mpr (Or.inl (Multiset.mem_singleton_self w))))
      · exact h.fresh w (Or.inl hw)
    · exact h.fresh w (Or.inr (Multiset.mem_add.mpr (Or.inr hw)))

end OfferInv

/-- What the call for `u` has achieved. -/
def Offered (G : CSR) (r u : ℕ) (s : SearchState) : Prop :=
  ∀ i, G.OutSlot u i → s.dist (G.outEdge i) ≤ glue32 r u

section

variable (hL : Labelling G (distancesAndParents G) source unreached goal)

section PushRound

include hL

/-- The iteration for one out-slot: a cell that falls belongs to a vertex of the next distance. -/
theorem ensures_offer {i : ℕ} (hbelow : Below (distancesAndParents G) unreached goal (q + 1) s₀)
    (hu : At (distancesAndParents G) goal q u) (hi : G.OutSlot u i) :
    Ensures (offerProtocol G goal q s₀) env (fun _ s b => s.dist (G.outEdge i) ≤ glue32 (q + 1) u ∧ b = 0)
      (do
        let lowered ← writeMin (cell (G.outEdge i)) (glue32 (q + 1) u)
        if lowered then do
          let _ ← VertexSet.remove active (G.outEdge i)
          let _ ← VertexSet.insert nextFrontier (G.outEdge i)
          ret ()
        else ret ()) s 0 := by
  have hsize := hL.size
  have hedge : G.Edge u (G.outEdge i) := ⟨hL.goal_lt u hu.2, i, hi, rfl⟩
  have hq : q + 1 < 2 ^ 32 := by
    have := hu.lt hL
    omega
  have hgoal : goal (G.outEdge i) ≤ glue32 (q + 1) u := hL.goal_le u _ q hedge hu.1.le hq
  refine ensures_writeMin (fun s₁ o _ hinv hlt => ?_) fun s₁ o _ hinv hle => ?_
  · have hat : At (distancesAndParents G) goal (q + 1) (G.outEdge i) := by
      obtain ⟨hle, htop⟩ := level_le_of_edge hL hedge hu.2
      rw [hu.1] at hle
      refine ⟨le_antisymm hle (not_lt.mp fun hb => ?_), htop⟩
      have hdist : s₁.dist (G.outEdge i) = goal (G.outEdge i) := by
        rw [hinv.same _ fun h => absurd h.1 hb.ne, hbelow _, if_pos hb]
      exact absurd hgoal (not_le.mpr (hdist ▸ hlt))
    rw [zero_add] at hinv
    refine ⟨{G.outEdge i}, ⟨(searchRel_put hlt).1, Finset.Subset.refl _⟩, hinv.lower_cell hat hgoal, ?_⟩
    refine Ensures.act fun s₂ o₂ hrel₂ hinv₂ => ⟨{G.outEdge i},
      ⟨fun _ => le_rfl, Finset.erase_subset _ _⟩, ?_, ?_⟩
    · exact hinv₂.remove hat
    · refine Ensures.act fun s₃ o₃ hrel₃ hinv₃ => ⟨0, ⟨fun _ => le_rfl, Finset.Subset.refl _⟩, ?_, ?_⟩
      · rw [zero_add]
        exact hinv₃.insert fun hmem => Finset.notMem_erase _ _ (hrel₃.2 hmem)
      · refine Ensures.ret fun s₄ o₄ hrel₄ hinv₄ => ⟨0, hinv₄, ?_, rfl⟩
        exact (hrel₄.1 _).trans ((hrel₃.1 _).trans ((hrel₂.1 _).trans dist_put_self.le))
  · refine ⟨0, hinv, ?_⟩
    exact Ensures.ret fun s₂ o₂ hrel₂ hinv₂ => ⟨0, hinv₂, (hrel₂.1 _).trans hle, rfl⟩

/-- A sparse round reaches the state of the next one. -/
theorem total_treePushRound (hfrontier : ∀ v, v ∈ s.frontier ↔ At (distancesAndParents G) goal q v)
    (hnext : s.nextFrontier = ∅) (hactive : ActiveFrom G (distancesAndParents G) goal (q + 1) s)
    (hbelow : Below (distancesAndParents G) unreached goal (q + 1) s) :
    Total env (fun _ s' => s'.frontier = ∅ ∧ (∀ v, v ∈ s'.nextFrontier ↔
      At (distancesAndParents G) goal (q + 1) v) ∧
      ActiveFrom G (distancesAndParents G) goal (q + 2) s' ∧
      Below (distancesAndParents G) unreached goal (q + 2) s')
      (treePushRound G (q + 1)) s := by
  have hstart : OfferInv G goal q { s with frontier := ∅ } { s with frontier := ∅ } 0 := by
    refine ⟨rfl, fun v => ?_, fun v _ => rfl, Finset.Subset.refl _, fun v hv _ => hv, fun v _ => Or.inl rfl,
      fun v hv => ?_⟩
    · change goal v ≤ s.dist v
      rw [hbelow v]
      split
      · exact le_rfl
      · exact hL.goal_le_unreached v
    · refine (hv.elim (fun h => ?_) (Multiset.notMem_zero v)).elim
      rw [hnext] at h
      exact Finset.notMem_empty v h
  have hzero : ∑ _v ∈ s.frontier, (0 : Multiset ℕ) = 0 := Finset.sum_const_zero
  rw [← hzero] at hstart
  refine (VertexSet.total_consumeEach (c := frontier) (Q := Offered G (q + 1))
    (P := offerProtocol G goal q { s with frontier := ∅ }) rfl (fun _ => 0) hstart
    (fun v s s' hrel h i hi => (hrel.1 _).trans (h i hi)) fun u hu => ?_).mono ?_
  · have hbelow₀ : Below (distancesAndParents G) unreached goal (q + 1) { s with frontier := ∅ } := hbelow
    refine (Ensures.parallelForZero (P := offerProtocol G goal q { s with frontier := ∅ })
      (Q := fun i s => s.dist (G.outEdge i) ≤ glue32 (q + 1) u)
      (fun i s s' _ hrel h => (hrel.1 _).trans h)
      fun i h₁ h₂ => ensures_offer hL hbelow₀ ((hfrontier u).mp hu) ⟨h₁, h₂⟩).mono ?_
    rintro _ s₁ _ ⟨hslots, rfl⟩
    exact ⟨fun i hi => hslots i hi.1 hi.2, rfl⟩
  · rintro _ s' ⟨_, hinv, hoffered⟩
    -- The parent of a vertex of the next distance has offered itself.
    have hgoal : ∀ v, At (distancesAndParents G) goal (q + 1) v → s'.dist v = goal v := by
      rintro v ⟨hv, htop⟩
      have hne : v ≠ source := by
        rintro rfl
        rw [hL.level_source] at hv
        omega
      obtain ⟨u, ⟨hu, i, hi, rfl⟩, hlevel, hmake⟩ := hL.goal_eq v hne htop
      have hle := hoffered u ((hfrontier u).mpr ⟨by omega, by omega⟩) i hi
      refine le_antisymm ?_ (hinv.lower _)
      rw [hmake, hv]
      exact hle
    have hmoved : ∀ v, At (distancesAndParents G) goal (q + 1) v → v ∉ s'.active ∧ v ∈ s'.nextFrontier := by
      intro v hv
      refine ((hinv.moved v hv).resolve_left fun hsame => ?_).resolve_right (Multiset.notMem_zero v)
      have hunreached : s.dist v = unreached := by
        rw [hbelow v, if_neg (by rw [hv.1]; omega)]
      have hlevel : (distancesAndParents G).level (s'.dist v) = topLevel := by
        rw [hsame]
        change (distancesAndParents G).level (s.dist v) = topLevel
        rw [hunreached]
        exact hL.level_unreached
      rw [hgoal v hv] at hlevel
      exact absurd hlevel hv.2.ne
    have hbelow' : s'.dist = settle (distancesAndParents G) goal (q + 1) s.dist := by
      funext v
      by_cases hat : At (distancesAndParents G) goal (q + 1) v
      · rw [settle_at _ hat, hgoal v hat]
      · rw [settle_not_at _ hat]
        exact hinv.same v hat
    refine ⟨hinv.frontier, fun v => ⟨fun hv => hinv.fresh v (Or.inl hv), fun hv => (hmoved v hv).2⟩, fun v => ?_,
      fun v => ?_⟩
    · rw [← hactive.sdiff (S := (Finset.range G.n).filter (At (distancesAndParents G) goal (q + 1)))
        (fun w => ?_) v]
      · change _ ↔ v ∈ s.active \ _
        rw [Finset.mem_sdiff, Finset.mem_filter]
        refine ⟨fun hv => ⟨hinv.active_le hv, fun hat => (hmoved v hat.2).1 hv⟩, fun hv => ?_⟩
        refine hinv.active_ge v hv.1 fun hat => hv.2 ⟨Finset.mem_range.mpr (hL.goal_lt v hat.2), hat⟩
      · rw [Finset.mem_filter, Finset.mem_range]
        exact ⟨And.right, fun h => ⟨hL.goal_lt w h.2, h⟩⟩
    · rw [hbelow']
      exact hbelow.settle hL v

end PushRound

section PullRound

omit hL in
/-- Ascending in-lists: a later slot does not name a smaller vertex. -/
theorem inEdge_mono (hsorted : G.InSorted) {i j : ℕ} (hv : v < G.n) (hi : G.inOffset v ≤ i) (hij : i ≤ j)
    (hj : j < G.inOffset (v + 1)) : G.inEdge i ≤ G.inEdge j := by
  induction j, hij using Nat.le_induction with
  | base => exact le_rfl
  | succ j hij ih => exact (ih (by omega)).trans (hsorted v hv j (hi.trans hij) hj)

include hL

/-- The first in-neighbour at the distance before is the parent. -/
theorem goal_eq_closest (hT : G.Transposed) (hsorted : G.InSorted) {i : ℕ} (hr : 1 ≤ r) (hv : v < G.n)
    (h : Closest G (distancesAndParents G) goal r v (some i)) : goal v = glue32 r (G.inEdge i) := by
  obtain ⟨⟨hlevel, htop⟩, hslot, hat, hfirst⟩ := h.some_at i rfl
  have hsize := hL.size
  have hr' : r < 2 ^ 32 := by
    rw [hlevel] at htop
    exact htop.trans (by decide)
  have hedge : G.Edge (G.inEdge i) v := (hT _ v).mpr ⟨hv, i, hslot, rfl⟩
  have hne : v ≠ source := by
    rintro rfl
    rw [hL.level_source] at hlevel
    omega
  obtain ⟨u, hu, hlu, hmake⟩ := hL.goal_eq v hne htop
  have hsucc : r - 1 + 1 = r := Nat.sub_add_cancel hr
  have hle : goal v ≤ glue32 (r - 1 + 1) (G.inEdge i) := hL.goal_le _ v (r - 1) hedge hat.1.le (by omega)
  rw [hsucc] at hle
  refine le_antisymm hle ?_
  obtain ⟨_, j, hj, rfl⟩ := (hT u v).mp hu
  have hij : i ≤ j := not_lt.mp fun hji => hfirst j hj.1 hji ⟨by omega, by omega⟩
  have hmono := inEdge_mono hsorted hv hslot.1 hij hj.2
  have hmake' : goal v = glue32 r (G.inEdge j) := by
    rw [hmake, hlevel]
    rfl
  have hlt := CSR.inEdge_lt hv hj
  rw [hmake', glue32_eq hr' (by omega), glue32_eq hr' (by omega)]
  exact Nat.add_le_add_left hmono _

/-- Pulling collects the vertices at distance `r` and writes their cells. -/
theorem total_treePullRound (hT : G.Transposed) (hsorted : G.InSorted) (hr : 1 ≤ r) (hnext : s.nextFrontier = ∅)
    (hactive : ActiveFrom G (distancesAndParents G) goal r s) :
    Total env (fun _ s' => s' = { s with
      nextFrontier := s.active.filter (At (distancesAndParents G) goal r)
      dist := settle (distancesAndParents G) goal r s.dist }) (treePullRound G r) s := by
  set t : SearchState := { s with
    nextFrontier := s.active.filter (At (distancesAndParents G) goal r)
    dist := settle (distancesAndParents G) goal r s.dist } with ht
  refine total_forEachActive ⟨rfl, hnext ▸ Finset.empty_subset _, Finset.Subset.refl _, fun v hv => ?_⟩
    fun v hv => ?_
  · refine ⟨(settle_not_at _ fun hat => hv (hactive.mem hL hat)).symm, fun h => ?_, fun h => h⟩
    exact (hv (Finset.mem_filter.mp h).1).elim
  have hact : t.active = s.active := rfl
  refine (towards_closest hL hT hr hactive hv hact).bind ?_
  rintro found s₁ _ ⟨hfound, rfl⟩
  cases found with
  | some i =>
    have hat := (hfound.some_at i rfl).1
    have hgoal := goal_eq_closest hL hT hsorted hr ((hactive v).mp hv).1 hfound
    refine towards_insert (Finset.mem_filter.mpr ⟨hv, hat⟩) fun _ s₂ _ hmem => ?_
    rw [← bind_ret (atomicWrite (cell v) (glue32 r (G.inEdge i)))]
    refine towards_write ((settle_at _ hat).trans hgoal) fun s₃ hrel₃ hdist => ?_
    refine towards_ret fun s₄ hrel₄ hinv => ⟨hrel₄.1 v hdist, fun _ => hrel₄.2.1 (hrel₃.2.1 hmem), fun h => ?_⟩
    exact hinv.active_le h
  | none =>
    have hnot := hfound.none_at rfl
    refine towards_ret fun s₂ _ hinv => ⟨(hinv.dist v).elim (fun h => h.trans (settle_not_at _ hnot).symm) id,
      fun h => ?_, fun h => hinv.active_le h⟩
    exact (hnot (Finset.mem_filter.mp h).2).elim

end PullRound

/-- The head of the main loop in mode 0, in round `q + 1`. -/
structure TreeSparseHead (G : CSR) (unreached : ℕ) (goal : ℕ → ℕ) (q : ℕ) (s : SearchState) : Prop where
  frontier : s.frontier = ∅
  next : ∀ v, v ∈ s.nextFrontier ↔ At (distancesAndParents G) goal q v
  active : ActiveFrom G (distancesAndParents G) goal (q + 1) s
  below : Below (distancesAndParents G) unreached goal (q + 1) s

section Heads

variable {Q : Unit → SearchState → Prop}
include hL

/-- An iteration in mode 0. -/
theorem total_treeSparseMode (hhead : TreeSparseHead G unreached goal q s)
    (hfinished : ∀ s', (∀ v, s'.dist v = goal v) → Q () s')
    (hdense : q < G.n → ∀ s', DenseHead G (distancesAndParents G) unreached goal (q + 1) s' →
      Total env Q (env (.loop 1 stride (q + 1))) s')
    (hlocal : q < G.n → ∀ s', LocalHead (distancesAndParents G) unreached goal q s' →
      Total env Q (env (.loop 5 stride q)) s')
    (hsparse : q < G.n → ∀ s', TreeSparseHead G unreached goal (q + 1) s' →
      Total env Q (env (.loop 0 stride (q + 2))) s') :
    Total env Q (treeSparseMode G stride (q + 1)) s := by
  have hsize := hL.size
  let s₁ : SearchState := ⟨s.active, s.nextFrontier, s.frontier, s.dist⟩
  refine Total.modify (Total.read ?_)
  refine total_ifEmpty (s := s₁) (fun hnone => hfinished _ ?_) fun ⟨w, hw⟩ => ?_
  · have hexact : Exact (distancesAndParents G) unreached goal q s₁ := Below.exact hhead.below
    exact hexact.finished hL (Nat.le_succ q) fun v hv => hnone v ((hhead.next v).mpr hv)
  have hq : q < G.n := ((hhead.next w).mp hw).lt hL
  refine Total.read ?_
  split
  · let t : SearchState := ⟨s.active, ∅, ∅, s.dist⟩
    refine (total_consumeFrontier (s := s₁) (t := t)
      ⟨rfl, hhead.frontier.subset, Finset.Subset.refl _, fun v hv => ?_⟩
      fun v hv => ?_).bind ?_
    · exact ⟨rfl, fun h => (Finset.notMem_empty v h).elim, fun h => h⟩
    · refine towards_ret fun s₂ _ hinv => ⟨(hinv.dist v).elim id id, fun h => ?_, fun h => hinv.active_le h⟩
      exact (Finset.notMem_empty v h).elim
    · rintro _ _ rfl
      refine Total.invoke ?_
      rw [back_one_add (Nat.le_add_left 1 q) (by omega)]
      exact hdense hq t ⟨rfl, rfl, hhead.active, hhead.below, Nat.le_add_left 1 q⟩
  · split
    · next hlog =>
      let t : SearchState := ⟨s.active, ∅, s.nextFrontier, s.dist⟩
      refine (total_consumeFrontier (s := s₁) (t := t) ⟨rfl, ?_, Finset.Subset.refl _, fun v hv => ?_⟩
        fun v hv => ?_).bind ?_
      · exact hhead.frontier.subset.trans (Finset.empty_subset _)
      · exact ⟨rfl, fun h => (hv h).elim, fun h => h⟩
      · refine towards_insert hv fun _ s₂ _ hnext => ?_
        refine towards_ret fun s₃ hrel hinv => ⟨(hinv.dist v).elim id id, fun _ => hrel.2.1 hnext, fun h => ?_⟩
        exact hinv.active_le h
      · rintro _ _ rfl
        have hpos : 1 ≤ log2 G.n := Nat.size_pos.mpr (by omega)
        have hround : (back (q + 1) 2 + 1) % 2 ^ 64 = q := by
          unfold back
          omega
        refine Total.invoke ?_
        rw [hround]
        refine hlocal hq t ⟨rfl, Below.exact hhead.below, fun v hv => (hhead.next v).mpr hv,
          fun v hv => ?_, by omega⟩
        obtain ⟨hv, htop⟩ := (hhead.next v).mp hv
        exact ⟨hv.trans_lt (Nat.lt_succ_self q), htop⟩
    · refine (total_treePushRound hL (s := s₁) hhead.next hhead.frontier hhead.active hhead.below).bind ?_
      rintro _ s₂ ⟨h₁, h₂, h₃, h₄⟩
      refine Total.invoke ?_
      rw [Nat.mod_eq_of_lt (by omega)]
      exact hsparse hq s₂ ⟨h₁, h₂, h₃, h₄⟩

/-- An iteration in mode 1. -/
theorem total_treeDenseMode (hT : G.Transposed) (hsorted : G.InSorted)
    (hhead : DenseHead G (distancesAndParents G) unreached goal r s)
    (hfinished : ∀ s', (∀ v, s'.dist v = goal v) → Q () s')
    (hsparse : r < G.n → ∀ s', TreeSparseHead G unreached goal r s' →
      Total env Q (env (.loop 0 stride (r + 1))) s')
    (hdense : r < G.n → ∀ s', DenseHead G (distancesAndParents G) unreached goal (r + 1) s' →
      Total env Q (env (.loop 1 stride (r + 1))) s') :
    Total env Q (treeDenseMode G stride r) s := by
  have hsize := hL.size
  set F := s.active.filter (At (distancesAndParents G) goal r) with hF
  have hmem : ∀ v, v ∈ F ↔ At (distancesAndParents G) goal r v := by
    intro v
    rw [hF, Finset.mem_filter]
    exact ⟨And.right, fun h => ⟨hhead.active.mem hL h, h⟩⟩
  have hbelow := hhead.below.settle hL
  refine (total_treePullRound hL hT hsorted hhead.pos hhead.next hhead.active).bind ?_
  rintro _ _ rfl
  let s₁ : SearchState := ⟨s.active, F, s.frontier, settle (distancesAndParents G) goal r s.dist⟩
  refine Total.modify (Total.read ?_)
  refine total_ifEmpty (s := s₁) (fun hnone => hfinished _ ?_) fun ⟨w, hw⟩ => ?_
  · have hexact : Exact (distancesAndParents G) unreached goal r s₁ := Below.exact hbelow
    exact hexact.finished hL (Nat.le_succ r) fun v hv => hnone v ((hmem v).mpr hv)
  have hr : r < G.n := ((hmem w).mp hw).lt hL
  have hactive := hhead.active.sdiff hmem
  refine Total.read ?_
  split
  · let t : SearchState := ⟨s.active \ F, ∅, F, settle (distancesAndParents G) goal r s.dist⟩
    refine (total_consumeFrontier (s := s₁) (t := t)
      ⟨rfl, ?_, Finset.sdiff_subset, fun v hv => ?_⟩ fun v hv => ?_).bind ?_
    · exact hhead.frontier.subset.trans (Finset.empty_subset _)
    · exact ⟨rfl, fun h => (hv h).elim, fun h => Finset.mem_sdiff.mpr ⟨h, hv⟩⟩
    · refine towards_insert hv fun _ s₂ _ hnext => towards_remove (fun h => (Finset.mem_sdiff.mp h).2 hv) ?_
      intro _ s₃ hrel₃ hgone
      refine towards_ret fun s₄ hrel₄ hinv => ⟨(hinv.dist v).elim id id,
        fun _ => hrel₄.2.1 (hrel₃.2.1 hnext), fun h => ?_⟩
      exact (hgone (hrel₄.2.2 h)).elim
    · rintro _ _ rfl
      refine Total.invoke ?_
      rw [Nat.mod_eq_of_lt (by omega)]
      exact hsparse hr t ⟨rfl, hmem, hactive, hbelow⟩
  · let t : SearchState := ⟨s.active \ F, ∅, ∅, settle (distancesAndParents G) goal r s.dist⟩
    refine (total_consumeFrontier (s := s₁) (t := t)
      ⟨rfl, hhead.frontier.subset, Finset.sdiff_subset, fun v hv => ?_⟩
      fun v hv => ?_).bind ?_
    · exact ⟨rfl, fun h => (Finset.notMem_empty v h).elim, fun h => Finset.mem_sdiff.mpr ⟨h, hv⟩⟩
    · refine towards_remove (fun h => (Finset.mem_sdiff.mp h).2 hv) fun _ s₂ _ hgone => ?_
      refine towards_ret fun s₃ hrel hinv => ⟨(hinv.dist v).elim id id, fun h => ?_, fun h => ?_⟩
      · exact (Finset.notMem_empty v h).elim
      · exact (hgone (hrel.2.2 h)).elim
    · rintro _ _ rfl
      refine Total.invoke ?_
      rw [Nat.mod_eq_of_lt (by omega)]
      exact hdense hr t ⟨rfl, rfl, hactive, hbelow, Nat.le_add_left 1 r⟩

/-- From a head of either mode, the main loop ends with every cell at its goal. The rounds that are
left decide, and within a round a sparse iteration comes before a dense one. -/
theorem total_treeModes (hT : G.Transposed) (hsorted : G.InSorted) (m : ℕ) :
    (∀ q s, 2 * (G.n - q) + 1 ≤ m → TreeSparseHead G unreached goal q s → Total (treeProcedures G)
      (fun _ s' => ∀ v, s'.dist v = goal v) (treeProcedures G (.loop 0 1 (q + 1))) s) ∧
    (∀ r s, 2 * (G.n - r) + 2 ≤ m → DenseHead G (distancesAndParents G) unreached goal r s →
      Total (treeProcedures G) (fun _ s' => ∀ v, s'.dist v = goal v) (treeProcedures G (.loop 1 1 r)) s) := by
  induction m using Nat.strong_induction_on with
  | _ m ih =>
    refine ⟨fun q s hm hhead => ?_, fun r s hm hhead => ?_⟩
    · refine total_treeSparseMode hL hhead (fun _ h => h) (fun hq s' h => ?_) (fun hq s' h => ?_)
        (fun hq s' h => ?_)
      · exact (ih _ (by omega)).2 _ _ le_rfl h
      · refine total_localMode hL (gathersAll_distancesAndParents hL hT) (fun _ _ _ => rfl) (fun _ _ _ => rfl)
          (fun mode stride round hmode => ?_) le_rfl h (by omega) le_rfl (by omega) le_rfl (by omega)
        change (if mode = 0 then _ else if mode = 1 then _ else _) = _
        rw [if_neg (by omega), if_neg (by omega)]
      · exact (ih _ (by omega)).1 _ _ le_rfl h
    · refine total_treeDenseMode hL hT hsorted hhead (fun _ h => h) (fun hr s' h => ?_) (fun hr s' h => ?_)
      · exact (ih _ (by omega)).1 _ _ le_rfl h
      · exact (ih _ (by omega)).2 _ _ le_rfl h

end Heads

end

/-- The search from the creation of its sets on. -/
theorem total_treeSearch (hsize : G.n < 2 ^ 32) (hsource : source < G.n) (hT : G.Transposed)
    (hsorted : G.InSorted) (s : SearchState) :
    Total (treeProcedures G) (fun result _ => ∀ v, result v = treeGoal G source v)
      (breadthFirstSearchTree G source) s := by
  have hL := labelling_distancesAndParents hsize hsource
  have hat : ∀ v, v = source ↔ At (distancesAndParents G) (treeGoal G source) 0 v := by
    intro v
    constructor
    · rintro rfl
      exact ⟨hL.level_source, by rw [hL.level_source]; decide⟩
    · rintro ⟨hv, htop⟩
      by_contra hne
      obtain ⟨u, _, hu, _⟩ := hL.goal_eq v hne htop
      omega
  refine Total.modify (Total.act (Total.act (Total.modify ?_)))
  refine (Total.invoke ((total_treeModes hL hT hsorted _).1 0 _ le_rfl
    ⟨rfl, fun v => ?_, fun v => ?_, fun v => ?_⟩)).bind
    fun _ s' h => Total.atom (Total.ret h)
  · exact Finset.mem_insert.trans ((or_iff_left (Finset.notMem_empty v)).trans (hat v))
  · refine (Finset.mem_erase.trans (and_congr_right fun _ => Finset.mem_range (m := v) (n := G.n))).trans ?_
    refine ⟨fun h => ⟨h.2, fun hb => h.1 ((hat v).mpr ⟨Nat.lt_one_iff.mp hb.1, hb.2⟩)⟩,
      fun h => ⟨fun hv => ?_, h.1⟩⟩
    obtain ⟨hlevel, htop⟩ := (hat v).mp hv
    exact h.2 ⟨hlevel.trans_lt Nat.one_pos, htop⟩
  · change Function.update (fun _ => 2 ^ 64 - 1) source (glue32 0 (2 ^ 32 - 1)) v = _
    rcases eq_or_ne v source with rfl | hne
    · have hlevel : (distancesAndParents G).level (treeGoal G v v) < 1 := hL.level_source.trans_lt Nat.one_pos
      rw [Function.update_self, if_pos hlevel, treeGoal, if_pos rfl]
    · rw [Function.update_of_ne hne]
      refine (if_neg fun h => hne ((hat v).mpr ?_)).symm
      rw [Nat.lt_one_iff] at h
      exact ⟨h, by rw [h]; decide⟩

/-- The tree is exact: every run stops, and it returns for the source the distance 0 above no parent,
for every other vertex with a path from the source the number of edges on a shortest one above
the smallest in-neighbour one closer to the source, and for all others `2 ^ 64 - 1`. -/
theorem breadthFirstSearchTree_exact (G : CSR) (source : ℕ) (hsize : G.n < 2 ^ 32) (hT : G.Transposed)
    (hsorted : G.InSorted) (hsource : source < G.n) (s : SearchState) :
    Total (treeProcedures G) (fun result _ => ∀ v < G.n,
      (v = source → result v = glue32 0 (2 ^ 32 - 1)) ∧
      (∀ d : ℕ, v ≠ source → G.hopDistance source v = d →
        ∃ p, IsLeast {u | G.Edge u v ∧ G.hopDistance source u + 1 = d} p ∧ result v = glue32 d p) ∧
      (G.hopDistance source v = ⊤ → result v = 2 ^ 64 - 1))
      (breadthFirstSearchTree G source) s := by
  refine (total_treeSearch hsize hsource hT hsorted s).mono fun result _ h v _ =>
    ⟨?_, fun d hne hd => ?_, fun htop => ?_⟩
  · rintro rfl
    rw [h v, treeGoal, if_pos rfl]
  · have hgoal : ∀ u k : ℕ, G.hopDistance source u = k → hopGoal G source u = k ∧ k < topLevel := by
      intro u k hk
      have hlt := (CSR.hopDistance_lt hsource hk).1
      have htop : k < topLevel := by
        unfold topLevel
        omega
      rw [hopGoal, hk, Arcs.saturate_coe, min_eq_left htop.le]
      exact ⟨rfl, htop⟩
    obtain ⟨hv, htop⟩ := hgoal v d hd
    have hreached : hopGoal G source v < topLevel := hv ▸ htop
    have hset : {u | G.Edge u v ∧ hopGoal G source u + 1 = hopGoal G source v} =
        {u | G.Edge u v ∧ G.hopDistance source u + 1 = d} := by
      ext u
      refine and_congr_right fun _ => ?_
      rw [hv]
      constructor
      · intro hu
        rw [Arcs.eq_of_saturate_lt (show hopGoal G source u < topLevel by omega)]
        exact_mod_cast hu
      · intro hu
        obtain ⟨k, hk⟩ := ENat.ne_top_iff_exists.mp (show G.hopDistance source u ≠ ⊤ by
          intro htop'
          rw [htop', top_add] at hu
          exact ENat.top_ne_natCast d hu)
        rw [(hgoal u k hk.symm).1]
        rw [← hk] at hu
        exact_mod_cast hu
    refine ⟨parentOf G source v, hset ▸ isLeast_parentOf hsize hsource hne hreached, ?_⟩
    rw [h v, treeGoal, if_neg hne, if_pos hreached, hv]
  · have hne : v ≠ source := by
      rintro rfl
      rw [CSR.hopDistance, Arcs.distance_self] at htop
      exact ENat.zero_ne_top htop
    have hgoal : hopGoal G source v = topLevel := by
      rw [hopGoal, htop, Arcs.saturate_top]
    rw [h v, treeGoal, if_neg hne, if_neg hgoal.symm.le.not_gt]

/-- The incoming edges of the graph are sorted. -/
theorem oneEdge_inSorted : CSR.oneEdge.InSorted := fun _ _ _ _ _ => le_rfl

/-- The distances and the parents from the first vertex of a graph with one edge. -/
theorem breadthFirstSearchTree_exact_oneEdge :
    Total (treeProcedures CSR.oneEdge) (fun result _ => ∀ v < CSR.oneEdge.n,
      (v = 0 → result v = glue32 0 (2 ^ 32 - 1)) ∧
      (∀ d : ℕ, v ≠ 0 → CSR.oneEdge.hopDistance 0 v = d →
        ∃ p, IsLeast {u | CSR.oneEdge.Edge u v ∧ CSR.oneEdge.hopDistance 0 u + 1 = d} p ∧ result v = glue32 d p) ∧
      (CSR.oneEdge.hopDistance 0 v = ⊤ → result v = 2 ^ 64 - 1))
      (breadthFirstSearchTree CSR.oneEdge 0) (createState 2 0) :=
  breadthFirstSearchTree_exact CSR.oneEdge 0 (by decide) CSR.oneEdge_transposed oneEdge_inSorted (by decide)
    (createState 2 0)

end Search

end ToggleTree
