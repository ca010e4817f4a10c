import ToggleTree.BreadthFirstSearch.Rounds

/-!
# A sparse round

Two frontier vertices may find the same neighbour active. Both then remove it and both insert it
into the next frontier, so between a removal and the insertion that follows it the vertex is in
neither set; the branch that is about to insert it holds it as its resource.
-/

namespace ToggleTree

open ForkJoin ForkJoin.Prog

namespace Search

variable {G : CSR} {source : ℕ} {goal : ℕ → ℕ} {r : ℕ} {s₀ s s' : SearchState} {v : ℕ}
  {env : SearchCall → SearchProg Unit}

/-- The invariant of a sparse round that started in `s₀`; the vertices of `t` are about to be inserted. -/
structure PushInv (G : CSR) (goal : ℕ → ℕ) (r : ℕ) (s₀ s : SearchState) (t : Multiset ℕ) : Prop where
  frontier : s.frontier = ∅
  dist : ∀ v, s.dist v = s₀.dist v ∨ At (distances G) goal r v ∧ s.dist v = r
  active_le : s.active ⊆ s₀.active
  active_ge : ∀ v ∈ s₀.active, ¬At (distances G) goal (r + 1) v → v ∈ s.active
  moved : ∀ v, At (distances G) goal (r + 1) v → v ∈ s.active ∨ v ∈ s.nextFrontier ∨ v ∈ t
  fresh : ∀ v, v ∈ s.nextFrontier ∨ v ∈ t → At (distances G) goal (r + 1) v

/-- Distances once written stay, and no vertex becomes active. -/
def pushProtocol (G : CSR) (goal : ℕ → ℕ) (r : ℕ) (s₀ : SearchState) : Protocol SearchState (Multiset ℕ) where
  inv := PushInv G goal r s₀
  rel s s' := (∀ v, s.dist v = r → s'.dist v = r) ∧ s'.active ⊆ s.active
  refl _ := ⟨fun _ h => h, Finset.Subset.refl _⟩
  trans h h' := ⟨fun v hv => h'.1 v (h.1 v hv), h'.2.trans h.2⟩

/-- Storing the distance of a vertex of the round keeps the invariant. -/
theorem PushInv.setDist {t : Multiset ℕ} (h : PushInv G goal r s₀ s t) (hv : At (distances G) goal r v)
    (hr : r < 2 ^ 32) : PushInv G goal r s₀ ((cell v).put (r % 2 ^ 32) s) t := by
  refine ⟨h.frontier, fun w => ?_, h.active_le, h.active_ge, h.moved, h.fresh⟩
  rw [Nat.mod_eq_of_lt hr]
  rcases eq_or_ne w v with rfl | hne
  · exact Or.inr ⟨hv, dist_put_self⟩
  · rw [dist_put_of_ne hne]
    exact h.dist w

/-- Removing a vertex from the active ones keeps the invariant, with the insertion owed. -/
theorem PushInv.remove {t : Multiset ℕ} (h : PushInv G goal r s₀ s t)
    (hv : At (distances G) goal (r + 1) v) :
    PushInv G goal r s₀ (active.put (s.active.erase v) s) ({v} + t) := by
  refine ⟨h.frontier, h.dist, (Finset.erase_subset _ _).trans h.active_le, fun w hw hne => ?_, fun w hw => ?_,
    fun w hw => ?_⟩
  · refine Finset.mem_erase.mpr ⟨?_, h.active_ge w hw hne⟩
    rintro rfl
    exact hne hv
  · by_cases hwv : w = v
    · exact Or.inr (Or.inr (Multiset.mem_add.mpr (Or.inl (Multiset.mem_singleton.mpr hwv))))
    · rcases h.moved w hw with hmem | hmem | hmem
      · exact Or.inl (Finset.mem_erase.mpr ⟨hwv, hmem⟩)
      · exact Or.inr (Or.inl hmem)
      · exact Or.inr (Or.inr (Multiset.mem_add.mpr (Or.inr hmem)))
  · rcases hw with hw | hw
    · exact h.fresh w (Or.inl hw)
    · rcases Multiset.mem_add.mp hw with hw | hw
      · rwa [Multiset.mem_singleton.mp hw]
      · exact h.fresh w (Or.inr hw)

/-- The owed insertion into the next frontier keeps the invariant. -/
theorem PushInv.insert {t : Multiset ℕ} (h : PushInv G goal r s₀ s ({v} + t)) :
    PushInv G goal r s₀ (nextFrontier.put (insert v s.nextFrontier) s) t := by
  have hv : At (distances G) goal (r + 1) v :=
    h.fresh v (Or.inr (Multiset.mem_add.mpr (Or.inl (Multiset.mem_singleton_self v))))
  refine ⟨h.frontier, h.dist, h.active_le, h.active_ge, fun w hw => ?_, fun w hw => ?_⟩
  · rcases h.moved w hw with hmem | hmem | hmem
    · exact Or.inl hmem
    · exact Or.inr (Or.inl (Finset.mem_insert_of_mem hmem))
    · rcases Multiset.mem_add.mp hmem with hmem | hmem
      · exact Or.inr (Or.inl (Finset.mem_insert.mpr (Or.inl (Multiset.mem_singleton.mp hmem))))
      · exact Or.inr (Or.inr hmem)
  · rcases hw with hw | hw
    · rcases Finset.mem_insert.mp hw with rfl | hw
      · exact hv
      · exact h.fresh w (Or.inl hw)
    · exact h.fresh w (Or.inr (Multiset.mem_add.mpr (Or.inr hw)))

/-- What the call for `v` has achieved. -/
def Pushed (G : CSR) (r v : ℕ) (s : SearchState) : Prop :=
  s.dist v = r ∧ ∀ i, G.OutSlot v i → G.outEdge i ∉ s.active

/-- What has been pushed stays pushed. -/
theorem Pushed.mono (h : Pushed G r v s) (hrel : (pushProtocol G goal r s₀).rel s s') : Pushed G r v s' :=
  ⟨hrel.1 v h.1, fun i hi hmem => h.2 i hi (hrel.2 hmem)⟩

variable {unreached : ℕ} (hL : Labelling G (distances G) source unreached goal)
include hL

/-- The iteration for one out-slot. -/
theorem ensures_pushSlot {u i : ℕ} (hactive : ActiveFrom G (distances G) goal (r + 1) s₀)
    (hu : At (distances G) goal r u) (hi : G.OutSlot u i) :
    Ensures (pushProtocol G goal r s₀) env (fun _ s b => G.outEdge i ∉ s.active ∧ b = 0)
      (do
        let isActive ← VertexSet.contains active (G.outEdge i)
        if isActive then do
          let _ ← VertexSet.remove active (G.outEdge i)
          let _ ← VertexSet.insert nextFrontier (G.outEdge i)
          ret ()
        else ret ()) s 0 := by
  refine Ensures.read fun s₁ o₁ _ hinv₁ => ?_
  change Ensures _ env _ (if decide (G.outEdge i ∈ s₁.active) = true then _ else _) s₁ 0
  by_cases hmem : G.outEdge i ∈ s₁.active
  · rw [decide_eq_true hmem, if_pos rfl]
    have hat := at_of_edge hL hactive hu ⟨hL.goal_lt u hu.2, i, hi, rfl⟩ (hinv₁.active_le hmem)
    refine Ensures.act fun s₂ o₂ _ hinv₂ => ⟨{G.outEdge i}, ⟨fun _ h => h, Finset.erase_subset _ _⟩, ?_, ?_⟩
    · rw [zero_add] at hinv₂
      exact hinv₂.remove hat
    · refine Ensures.act fun s₃ o₃ hrel₃ hinv₃ => ⟨0, ⟨fun _ h => h, Finset.Subset.refl _⟩, ?_, ?_⟩
      · rw [zero_add]
        exact hinv₃.insert
      · refine Ensures.ret fun s₄ o₄ hrel₄ hinv₄ => ⟨0, hinv₄, fun h => ?_, rfl⟩
        exact Finset.notMem_erase _ _ (hrel₃.2 (hrel₄.2 h))
  · rw [decide_eq_false hmem, if_neg Bool.false_ne_true]
    exact Ensures.ret fun s₂ o₂ hrel₂ hinv₂ => ⟨0, hinv₂, fun h => hmem (hrel₂.2 h), rfl⟩

/-- The call for one vertex of the frontier. -/
theorem ensures_push (hactive : ActiveFrom G (distances G) goal (r + 1) s₀)
    (hv : At (distances G) goal r v) :
    Ensures (pushProtocol G goal r s₀) env (fun _ s b => Pushed G r v s ∧ b = 0)
      (do
        setDist r v
        parallelFor (G.outOffset v) (G.outOffset (v + 1)) fun i => do
          let isActive ← VertexSet.contains active (G.outEdge i)
          if isActive then do
            let _ ← VertexSet.remove active (G.outEdge i)
            let _ ← VertexSet.insert nextFrontier (G.outEdge i)
            ret ()
          else ret ()) s 0 := by
  have hr : r < 2 ^ 32 := (hv.lt hL).trans hL.size
  refine Ensures.modify fun s₁ o₁ _ hinv₁ => ⟨0, ⟨fun w hw => ?_, Finset.Subset.refl _⟩, ?_, ?_⟩
  · rcases eq_or_ne w v with rfl | hne
    · exact dist_put_self.trans (Nat.mod_eq_of_lt hr)
    · rw [dist_put_of_ne hne, hw]
  · rw [zero_add] at hinv₁ ⊢
    exact hinv₁.setDist hv hr
  · have hdist : ((cell v).put (r % 2 ^ 32) s₁).dist v = r := dist_put_self.trans (Nat.mod_eq_of_lt hr)
    refine ((Ensures.parallelForZero (P := pushProtocol G goal r s₀)
      (Q := fun i s => G.outEdge i ∉ s.active)
      (fun i s s' _ hrel h hmem => h (hrel.2 hmem))
      fun i h₁ h₂ => ensures_pushSlot hL hactive hv ⟨h₁, h₂⟩).withStable (K := fun s => s.dist v = r)
        (fun _ _ hrel h => hrel.1 v h) hdist).mono ?_
    rintro _ s₂ _ ⟨⟨hslots, rfl⟩, hdist₂⟩
    exact ⟨⟨hdist₂, fun i hi => hslots i hi.1 hi.2⟩, rfl⟩

/-- A sparse round reaches the state of the next one. -/
theorem total_pushRound (hfrontier : ∀ v, v ∈ s.frontier ↔ At (distances G) goal r v)
    (hnext : s.nextFrontier = ∅) (hactive : ActiveFrom G (distances G) goal (r + 1) s)
    (hbelow : Below (distances G) unreached goal r s) :
    Total env (fun _ s' => s'.frontier = ∅ ∧ (∀ v, v ∈ s'.nextFrontier ↔ At (distances G) goal (r + 1) v) ∧
      ActiveFrom G (distances G) goal (r + 2) s' ∧ Below (distances G) unreached goal (r + 1) s')
      (pushRound G r) s := by
  have hstart : PushInv G goal r { s with frontier := ∅ } { s with frontier := ∅ } 0 := by
    refine ⟨rfl, fun v => Or.inl rfl, Finset.Subset.refl _, fun v hv _ => hv, fun v hv => Or.inl ?_,
      fun v hv => ?_⟩
    · refine (hactive v).mpr ⟨hL.goal_lt v hv.2, fun h => ?_⟩
      have := h.1
      rw [hv.1] at this
      omega
    · refine (hv.elim (fun h => ?_) (Multiset.notMem_zero v)).elim
      rw [hnext] at h
      exact Finset.notMem_empty v h
  have hzero : ∑ _v ∈ s.frontier, (0 : Multiset ℕ) = 0 := Finset.sum_const_zero
  rw [← hzero] at hstart
  refine (VertexSet.total_consumeEach (c := frontier) (Q := Pushed G r)
    (P := pushProtocol G goal r { s with frontier := ∅ }) rfl (fun _ => 0) hstart
    (fun v s s' hrel h => h.mono hrel) fun v hv => ?_).mono ?_
  · have hactive₀ : ActiveFrom G (distances G) goal (r + 1) { s with frontier := ∅ } := hactive
    exact ensures_push hL hactive₀ ((hfrontier v).mp hv)
  · rintro _ s' ⟨_, hinv, hpushed⟩
    -- Every vertex of the next distance has an in-neighbour in the frontier.
    have hgone : ∀ v, At (distances G) goal (r + 1) v → v ∉ s'.active := by
      rintro v ⟨hv, htop⟩
      have hne : v ≠ source := by
        rintro rfl
        rw [hL.level_source] at hv
        omega
      obtain ⟨u, ⟨hu, i, hi, rfl⟩, hlevel, _⟩ := hL.goal_eq v hne htop
      exact (hpushed u ((hfrontier u).mpr ⟨by omega, by omega⟩)).2 i hi
    refine ⟨hinv.frontier, fun v => ⟨fun hv => hinv.fresh v (Or.inl hv), fun hv => ?_⟩,
      fun v => ⟨fun hv => ?_, ?_⟩,
      fun v => ?_⟩
    · exact ((hinv.moved v hv).resolve_left (hgone v hv)).resolve_right (Multiset.notMem_zero v)
    · obtain ⟨hlt, hnot⟩ := (hactive v).mp (hinv.active_le hv)
      refine ⟨hlt, fun h => ?_⟩
      by_cases heq : (distances G).level (goal v) = r + 1
      · exact hgone v ⟨heq, h.2⟩ hv
      · exact hnot ⟨by have := h.1; omega, h.2⟩
    · rintro ⟨hlt, hnot⟩
      refine hinv.active_ge v ((hactive v).mpr ⟨hlt, fun h => hnot ⟨h.1.trans (by omega), h.2⟩⟩) fun h => ?_
      exact hnot ⟨h.1.trans_lt (by omega), h.2⟩
    · by_cases hat : At (distances G) goal r v
      · have hlevel := hat.1
        rw [(hpushed v ((hfrontier v).mpr hat)).1, if_pos (by omega)]
        exact hlevel.symm
      · have hdist : s'.dist v = s.dist v := (hinv.dist v).resolve_right fun h => hat h.1
        rw [hdist, hbelow v]
        by_cases hlt : (distances G).level (goal v) < r
        · rw [if_pos hlt, if_pos (by omega)]
        · rw [if_neg hlt]
          by_cases heq : (distances G).level (goal v) = r
          · rw [if_pos (by omega)]
            refine (hL.goal_unreached v ?_).symm
            by_contra htop
            exact hat ⟨heq, not_le.mp htop⟩
          · rw [if_neg (by omega)]

end Search

end ToggleTree
