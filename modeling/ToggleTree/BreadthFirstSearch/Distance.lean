import ToggleTree.BreadthFirstSearch.PushRound

/-!
# Breadth-first search computes distances

The heads of the main loop in the three modes, what one iteration makes of each of them, and the
result: whichever modes and strides the thresholds select and however the parallel loops
interleave, the search stops with the distances from the source.
-/

namespace ToggleTree

open ForkJoin ForkJoin.Prog

namespace Search

variable {G : CSR} {source : ℕ} {goal : ℕ → ℕ} {r stride : ℕ} {s t : SearchState} {v : ℕ}
  {env : SearchCall → SearchProg Unit}

/-- The distance from the source in 32 bits. -/
noncomputable def hopGoal (G : CSR) (source v : ℕ) : ℕ := Arcs.saturate topLevel (G.hopDistance source v)

/-- The distances label the cells of `breadth_first_search`. -/
theorem labelling_distances (hsize : G.n < 2 ^ 32) (hsource : source < G.n) :
    Labelling G (distances G) source topLevel (hopGoal G source) where
  size := hsize
  source_lt := hsource
  level_mono _ _ h := h
  level_make _ _ _ _ := rfl
  level_unreached := rfl
  goal_le_unreached _ := Arcs.saturate_le _ _
  goal_unreached _ h := le_antisymm (Arcs.saturate_le _ _) h
  level_source := by
    change hopGoal G source source = 0
    rw [hopGoal, CSR.hopDistance, Arcs.distance_self, Arcs.saturate_zero]
  goal_lt v hv := (CSR.hopDistance_lt hsource (Arcs.eq_of_saturate_lt hv)).2
  goal_le u v x hedge hx _ :=
    (Arcs.saturate_distance_le_add (A := G.hop) (w := 1) ⟨hedge, rfl⟩).trans (Nat.add_le_add_right hx 1)
  goal_eq v hne hv := by
    obtain ⟨u, w, c, ⟨hedge, rfl⟩, hu, hc⟩ := Arcs.exists_predecessor (Arcs.eq_of_saturate_lt hv) hne
    have hv' : hopGoal G source v < topLevel := hv
    have hgoal : hopGoal G source v = c + 1 := hc
    have hgoal' : hopGoal G source u = c := by
      rw [hopGoal, CSR.hopDistance, hu, Arcs.saturate_coe, min_eq_left (by omega)]
    exact ⟨u, hedge, by change hopGoal G source u + 1 = hopGoal G source v; omega, rfl⟩

/-- The head of the main loop in mode 0. -/
structure SparseHead (G : CSR) (goal : ℕ → ℕ) (r : ℕ) (s : SearchState) : Prop where
  frontier : s.frontier = ∅
  next : ∀ v, v ∈ s.nextFrontier ↔ At (distances G) goal r v
  active : ActiveFrom G (distances G) goal (r + 1) s
  below : Below (distances G) topLevel goal r s

variable (hL : Labelling G (distances G) source topLevel goal)

section Heads

variable {Q : Unit → SearchState → Prop}
include hL

/-- `dist[s] = round` -/
theorem settle_eq_round (dist : ℕ → ℕ) (hv : At (distances G) goal r v) :
    settle (distances G) goal r dist v = r % 2 ^ 32 := by
  rw [Nat.mod_eq_of_lt ((hv.lt hL).trans hL.size), settle_at dist hv]
  exact hv.1

/-- An iteration in mode 0. -/
theorem total_sparseMode (hhead : SparseHead G goal r s)
    (hfinished : ∀ s', (∀ v, s'.dist v = goal v) → Q () s')
    (hdense : r < G.n → ∀ s', DenseHead G (distances G) topLevel goal (r + 1) s' →
      Total env Q (env (.loop 1 stride (r + 1))) s')
    (hlocal : r < G.n → ∀ s', LocalHead (distances G) topLevel goal r s' →
      Total env Q (env (.loop 5 stride r)) s')
    (hsparse : r < G.n → ∀ s', SparseHead G goal (r + 1) s' → Total env Q (env (.loop 0 stride (r + 1))) s') :
    Total env Q (sparseMode G stride r) s := by
  have hsize := hL.size
  let s₁ : SearchState := ⟨s.active, s.nextFrontier, s.frontier, s.dist⟩
  refine Total.modify (Total.read ?_)
  refine total_ifEmpty (s := s₁) (fun hnone => hfinished _ ?_) fun ⟨w, hw⟩ => ?_
  · have hbelow : Below (distances G) topLevel goal r s₁ := hhead.below
    exact hbelow.finished hL fun v hv => hnone v ((hhead.next v).mpr hv)
  have hr : r < G.n := ((hhead.next w).mp hw).lt hL
  refine Total.read ?_
  split
  · -- The frontier is large: write its distances and pull from the next round on.
    let t : SearchState := ⟨s.active, ∅, ∅, settle (distances G) goal r s.dist⟩
    refine (total_consumeFrontier (s := s₁) (t := t)
      ⟨rfl, hhead.frontier.subset, Finset.Subset.refl _, fun v hv => ?_⟩
      fun v hv => ?_).bind ?_
    · refine ⟨(settle_not_at _ fun h => hv ((hhead.next v).mpr h)).symm, fun h => ?_, fun h => h⟩
      exact (Finset.notMem_empty v h).elim
    · rw [← bind_ret (setDist r v)]
      refine towards_write (settle_eq_round hL _ ((hhead.next v).mp hv)) fun s₂ _ hdist => ?_
      refine towards_ret fun s₃ hrel hinv => ⟨hrel.1 v hdist,
        fun h => (Finset.notMem_empty v h).elim, fun h => ?_⟩
      exact hinv.active_le h
    · rintro _ _ rfl
      refine Total.invoke ?_
      rw [Nat.mod_eq_of_lt (by omega)]
      exact hdense hr t ⟨rfl, rfl, hhead.active, hhead.below.settle hL, by omega⟩
  · split
    · next hlog =>
      -- The search has gone on for long: write the distances and search locally.
      let t : SearchState := ⟨s.active, ∅, s.nextFrontier, settle (distances G) goal r s.dist⟩
      refine (total_consumeFrontier (s := s₁) (t := t) ⟨rfl, ?_, Finset.Subset.refl _, fun v hv => ?_⟩
        fun v hv => ?_).bind ?_
      · exact hhead.frontier.subset.trans (Finset.empty_subset _)
      · refine ⟨(settle_not_at _ fun h => hv ((hhead.next v).mpr h)).symm, fun h => (hv h).elim, fun h => h⟩
      · refine towards_write (settle_eq_round hL _ ((hhead.next v).mp hv)) fun s₂ _ hdist => ?_
        refine towards_insert hv fun _ s₃ hrel₃ hnext => ?_
        refine towards_ret fun s₄ hrel₄ hinv => ⟨hrel₄.1 v (hrel₃.1 v hdist),
          fun _ => hrel₄.2.1 hnext, fun h => ?_⟩
        exact hinv.active_le h
      · rintro _ _ rfl
        have hpos : 1 ≤ log2 G.n := Nat.size_pos.mpr (by omega)
        refine Total.invoke ?_
        rw [back_one_add (by omega) (by omega)]
        refine hlocal hr t ⟨rfl, fun v => ?_, fun v hv => (hhead.next v).mpr hv, fun v hv => ?_, by omega⟩
        · rw [hhead.below.settle hL v]
          exact if_congr Nat.lt_succ_iff rfl rfl
        · obtain ⟨hv, htop⟩ := (hhead.next v).mp hv
          exact ⟨by omega, htop⟩
    · refine (total_pushRound hL (s := s₁) hhead.next hhead.frontier hhead.active hhead.below).bind ?_
      rintro _ s₂ ⟨h₁, h₂, h₃, h₄⟩
      refine Total.invoke ?_
      rw [Nat.mod_eq_of_lt (by omega)]
      exact hsparse hr s₂ ⟨h₁, h₂, h₃, h₄⟩

/-- Pulling collects the vertices at distance `r`. -/
theorem total_pullRound (hT : G.Transposed) (hr : 1 ≤ r) (hnext : s.nextFrontier = ∅)
    (hactive : ActiveFrom G (distances G) goal r s) :
    Total env (fun _ s' => s' = { s with nextFrontier := s.active.filter (At (distances G) goal r) })
      (pullRound G) s := by
  set t : SearchState := { s with nextFrontier := s.active.filter (At (distances G) goal r) } with ht
  refine total_forEachActive ⟨rfl, hnext ▸ Finset.empty_subset _, Finset.Subset.refl _, fun v hv => ?_⟩
    fun v hv => ?_
  · exact ⟨rfl, fun h => (hv (Finset.mem_filter.mp h).1).elim, fun h => h⟩
  have hact : t.active = s.active := rfl
  refine (towards_closest hL hT hr hactive hv hact).bind ?_
  rintro found s₁ _ ⟨hfound, rfl⟩
  cases found with
  | some i =>
    refine towards_insert (Finset.mem_filter.mpr ⟨hv, (hfound.some_at i rfl).1⟩) fun _ s₂ _ hmem => ?_
    refine towards_ret fun s₃ hrel hinv => ⟨(hinv.dist v).elim id id, fun _ => hrel.2.1 hmem, fun h => ?_⟩
    exact hinv.active_le h
  | none =>
    refine towards_ret fun s₂ _ hinv => ⟨(hinv.dist v).elim id id, fun h => ?_, fun h => hinv.active_le h⟩
    exact (hfound.none_at rfl (Finset.mem_filter.mp h).2).elim

/-- An iteration in mode 1. -/
theorem total_denseMode (hT : G.Transposed) (hhead : DenseHead G (distances G) topLevel goal r s)
    (hfinished : ∀ s', (∀ v, s'.dist v = goal v) → Q () s')
    (hsparse : r < G.n → ∀ s', SparseHead G goal r s' → Total env Q (env (.loop 0 stride r)) s')
    (hdense : r < G.n → ∀ s', DenseHead G (distances G) topLevel goal (r + 1) s' →
      Total env Q (env (.loop 1 stride (r + 1))) s') :
    Total env Q (denseMode G stride r) s := by
  have hsize := hL.size
  set F := s.active.filter (At (distances G) goal r) with hF
  have hmem : ∀ v, v ∈ F ↔ At (distances G) goal r v := by
    intro v
    rw [hF, Finset.mem_filter, hhead.active v]
    refine ⟨And.right, fun h => ⟨⟨hL.goal_lt v h.2, fun hb => ?_⟩, h⟩⟩
    have := hb.1
    rw [h.1] at this
    omega
  refine (total_pullRound hL hT hhead.pos hhead.next hhead.active).bind ?_
  rintro _ _ rfl
  let s₁ : SearchState := ⟨s.active, F, s.frontier, s.dist⟩
  refine Total.modify (Total.read ?_)
  refine total_ifEmpty (s := s₁) (fun hnone => hfinished _ ?_) fun ⟨w, hw⟩ => ?_
  · have hbelow : Below (distances G) topLevel goal r s₁ := hhead.below
    exact hbelow.finished hL fun v hv => hnone v ((hmem v).mpr hv)
  have hr : r < G.n := ((hmem w).mp hw).lt hL
  have hactive := hhead.active.sdiff hmem
  refine Total.read ?_
  split
  · -- The frontier is small: back to pushing, in the same round.
    let t : SearchState := ⟨s.active \ F, ∅, F, s.dist⟩
    refine (total_consumeFrontier (s := s₁) (t := t)
      ⟨rfl, ?_, Finset.sdiff_subset, fun v hv => ?_⟩ fun v hv => ?_).bind ?_
    · exact hhead.frontier.subset.trans (Finset.empty_subset _)
    · exact ⟨rfl, fun h => (hv h).elim, fun h => Finset.mem_sdiff.mpr ⟨h, hv⟩⟩
    · refine towards_insert hv fun _ s₂ _ hnext => towards_remove (fun h => (Finset.mem_sdiff.mp h).2 hv) ?_
      intro _ s₃ hrel₃ hgone
      refine towards_ret fun s₄ hrel₄ hinv => ⟨(hinv.dist v).elim id id,
        fun _ => hrel₄.2.1 (hrel₃.2.1 hnext), fun h => ?_⟩
      exact (hgone (hrel₄.2.2 h)).elim
    · rintro _ _ rfl
      refine Total.invoke ?_
      rw [back_one_add hhead.pos (by omega)]
      exact hsparse hr t ⟨rfl, hmem, hactive, hhead.below⟩
  · let t : SearchState := ⟨s.active \ F, ∅, ∅, settle (distances G) goal r s.dist⟩
    refine (total_consumeFrontier (s := s₁) (t := t)
      ⟨rfl, hhead.frontier.subset, Finset.sdiff_subset, fun v hv => ?_⟩
      fun v hv => ?_).bind ?_
    · refine ⟨(settle_not_at _ fun h => hv ((hmem v).mpr h)).symm, fun h => ?_,
        fun h => Finset.mem_sdiff.mpr ⟨h, hv⟩⟩
      exact (Finset.notMem_empty v h).elim
    · refine towards_write (settle_eq_round hL _ ((hmem v).mp hv)) fun s₂ _ hdist => ?_
      refine towards_remove (fun h => (Finset.mem_sdiff.mp h).2 hv) fun _ s₃ hrel₃ hgone => ?_
      refine towards_ret fun s₄ hrel₄ _ => ⟨hrel₄.1 v (hrel₃.1 v hdist), fun h => ?_, fun h => ?_⟩
      · exact (Finset.notMem_empty v h).elim
      · exact (hgone (hrel₄.2.2 h)).elim
    · rintro _ _ rfl
      refine Total.invoke ?_
      rw [Nat.mod_eq_of_lt (by omega)]
      exact hdense hr t ⟨rfl, rfl, hactive, hhead.below.settle hL, by omega⟩

/-- From a head of either mode, the main loop ends with every cell at its goal. The rounds that are
left decide, and within a round a dense iteration comes before a sparse one. -/
theorem total_modes (hT : G.Transposed) (m : ℕ) :
    (∀ r s, 2 * (G.n - r) ≤ m → SparseHead G goal r s → Total (procedures G) (fun _ s' => ∀ v, s'.dist v = goal v)
      (procedures G (.loop 0 1 r)) s) ∧
    (∀ r s, 2 * (G.n - r) + 1 ≤ m → DenseHead G (distances G) topLevel goal r s → Total (procedures G)
      (fun _ s' => ∀ v, s'.dist v = goal v) (procedures G (.loop 1 1 r)) s) := by
  induction m using Nat.strong_induction_on with
  | _ m ih =>
    refine ⟨fun r s hm hhead => ?_, fun r s hm hhead => ?_⟩
    · refine total_sparseMode hL hhead (fun _ h => h) (fun hr s' h => ?_) (fun hr s' h => ?_) (fun hr s' h => ?_)
      · exact (ih _ (by omega)).2 _ _ le_rfl h
      · refine total_localMode hL (gathersAll_distances hL hT) (fun _ _ _ => rfl) (fun _ _ _ => rfl)
          (fun mode stride round hmode => ?_) le_rfl h (by omega) le_rfl (by omega) le_rfl (by omega)
        change (if mode = 0 then _ else if mode = 1 then _ else _) = _
        rw [if_neg (by omega), if_neg (by omega)]
      · exact (ih _ (by omega)).1 _ _ le_rfl h
    · refine total_denseMode hL hT hhead (fun _ h => h) (fun hr s' h => ?_) (fun hr s' h => ?_)
      · exact (ih _ (by omega)).1 _ _ le_rfl h
      · exact (ih _ (by omega)).2 _ _ le_rfl h

/-- The search from the creation of its sets on. -/
theorem total_search (hT : G.Transposed) (s : SearchState) :
    Total (procedures G) (fun dist _ => ∀ v, dist v = goal v) (breadthFirstSearch G source) s := by
  refine Total.modify (Total.act (Total.act ?_))
  have hzero : goal source = 0 := hL.level_source
  have hat : ∀ v, v = source ↔ At (distances G) goal 0 v := by
    intro v
    constructor
    · rintro rfl
      exact ⟨hL.level_source, by rw [hL.level_source]; decide⟩
    · rintro ⟨hv, htop⟩
      by_contra hne
      obtain ⟨u, _, hu, _⟩ := hL.goal_eq v hne htop
      omega
  refine (Total.invoke ((total_modes hL hT _).1 0 _ le_rfl ⟨rfl, fun v => ?_, fun v => ?_, fun v => ?_⟩)).bind
    fun _ s' h => Total.atom (Total.ret h)
  · exact Finset.mem_insert.trans ((or_iff_left (Finset.notMem_empty v)).trans (hat v))
  · refine (Finset.mem_erase.trans (and_congr_right fun _ => Finset.mem_range (m := v) (n := G.n))).trans ?_
    refine ⟨fun h => ⟨h.2, fun hb => h.1 ((hat v).mpr ⟨by have := hb.1; omega, hb.2⟩)⟩,
      fun h => ⟨fun hv => ?_, h.1⟩⟩
    obtain ⟨hlevel, htop⟩ := (hat v).mp hv
    exact h.2 ⟨by omega, htop⟩
  · rw [if_neg (Nat.not_lt_zero _)]
    rfl

end Heads

/-- Breadth-first search is exact: every run stops, and it returns the number of edges on a shortest
path from the source, or `2 ^ 32 - 1` exactly if there is no path. -/
theorem breadthFirstSearch_exact (G : CSR) (source : ℕ) (hsize : G.n < 2 ^ 32) (hT : G.Transposed)
    (hsource : source < G.n) (s : SearchState) :
    Total (procedures G) (fun dist _ => ∀ v < G.n,
      (∀ d : ℕ, G.hopDistance source v = d → dist v = d) ∧
      (dist v = 2 ^ 32 - 1 ↔ G.hopDistance source v = ⊤))
      (breadthFirstSearch G source) s := by
  refine (total_search (labelling_distances hsize hsource) hT s).mono fun dist _ h v _ => ⟨fun d hd => ?_, ?_⟩
  · have hlt := (CSR.hopDistance_lt hsource hd).1
    rw [h v, hopGoal, hd, Arcs.saturate_coe, min_eq_left]
    unfold topLevel
    omega
  · rw [h v]
    constructor
    · intro htop
      by_contra hne
      obtain ⟨d, hd⟩ := ENat.ne_top_iff_exists.mp hne
      have hlt := (CSR.hopDistance_lt hsource hd.symm).1
      rw [hopGoal, ← hd, Arcs.saturate_coe] at htop
      unfold topLevel at htop
      omega
    · intro htop
      rw [hopGoal, htop, Arcs.saturate_top]
      rfl

/-- The distances from the first vertex of a graph with one edge. -/
theorem breadthFirstSearch_exact_oneEdge :
    Total (procedures CSR.oneEdge) (fun dist _ => ∀ v < CSR.oneEdge.n,
      (∀ d : ℕ, CSR.oneEdge.hopDistance 0 v = d → dist v = d) ∧
      (dist v = 2 ^ 32 - 1 ↔ CSR.oneEdge.hopDistance 0 v = ⊤))
      (breadthFirstSearch CSR.oneEdge 0) (createState 2 0) :=
  breadthFirstSearch_exact CSR.oneEdge 0 (by decide) CSR.oneEdge_transposed (by decide) (createState 2 0)

end Search

end ToggleTree
