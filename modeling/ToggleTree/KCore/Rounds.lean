import ToggleTree.KCore.Phases
import ToggleTree.KCore.Search

/-!
# The rounds of the decomposition

Whenever an iteration of a main loop starts, every active vertex has more than `k` slots left. A
vertex that is not sampled has its count in `coreness`, and a sampled vertex has what is left above
`k` in its shards.
-/

namespace ToggleTree

open ForkJoin ForkJoin.Prog

namespace KCore

/-- The state when an iteration of a main loop starts. -/
structure Round (G : CSR) (workers k : ℕ) (s : KCoreState) : Prop where
  bound : ∀ v, v ∈ s.active ∨ v ∈ s.frontier → v < G.n ∧ v < 2 ^ 32
  disjoint : ∀ v ∈ s.frontier, v ∉ s.active
  next : s.nextFrontier = ∅
  resample : s.resample = ∅
  account : ∑ u ∈ s.active, G.slots u + ∑ u ∈ s.frontier, G.slots u + s.processed = allSlots G
  sample_le : s.sampleMode ⊆ s.active
  inj : Set.InjOn s.place s.sampleMode
  above : ∀ v ∈ s.active, k < left G s v
  count : ∀ v ∈ s.active, v ∉ s.sampleMode → s.coreness v = left G s v
  stale : ∀ v ∈ s.sampleMode, s.coreness v = G.degree v
  sampled : ∀ v ∈ s.sampleMode, Counted workers ((left G s v : ℤ) - k) fun w => s.shards w (s.place v)
  level : ∃ L, IsCore G k L ∧ s.active ⊆ L ∧ s.frontier ⊆ L
  core : ∀ H, IsCore G (k + 1) H → H ⊆ s.active
  done : ∀ v < G.n, v ∉ s.active → IsCoreness G v (s.coreness v)

/-- The state when the next frontier is about to be filled. -/
structure Level (G : CSR) (workers k : ℕ) (s : KCoreState) : Prop where
  bound : ∀ v ∈ s.active, v < G.n ∧ v < 2 ^ 32
  frontier : s.frontier = ∅
  next : s.nextFrontier = ∅
  resample : s.resample = ∅
  account : ∑ u ∈ s.active, G.slots u + s.processed = allSlots G
  sample_le : s.sampleMode ⊆ s.active
  inj : Set.InjOn s.place s.sampleMode
  le : ∀ v ∈ s.active, k ≤ left G s v
  count : ∀ v ∈ s.active, v ∉ s.sampleMode → s.coreness v = left G s v
  stale : ∀ v ∈ s.sampleMode, s.coreness v = G.degree v
  sampled : ∀ v ∈ s.sampleMode, Counted workers ((left G s v : ℤ) - k) fun w => s.shards w (s.place v)
  core : ∀ H, IsCore G (k + 1) H → H ⊆ s.active
  done : ∀ v < G.n, v ∉ s.active → IsCoreness G v (s.coreness v)

section Shares

variable {S : Finset ℕ} {s t : KCoreState} {v : ℕ} {x : Share}

/-- The share says whether the vertex is active. -/
theorem mem_active_of_share (h : share S s v = x) : v ∈ s.active ↔ x.active = true := by
  rw [← h]
  exact decide_eq_true_iff.symm

/-- The share says whether the vertex is in the frontier. -/
theorem mem_frontier_of_share (h : share S s v = x) : v ∈ s.frontier ↔ x.frontier = true := by
  rw [← h]
  exact decide_eq_true_iff.symm

/-- The share says whether the vertex is in the next frontier. -/
theorem mem_next_of_share (h : share S s v = x) : v ∈ s.nextFrontier ↔ x.next = true := by
  rw [← h]
  exact decide_eq_true_iff.symm

/-- The share says whether the vertex is sampled. -/
theorem mem_sampleMode_of_share (h : share S s v = x) : v ∈ s.sampleMode ↔ x.sampled = true := by
  rw [← h]
  exact decide_eq_true_iff.symm

/-- The share says what the counters of the vertex are. -/
theorem column_of_share (h : share S s v = x) (hv : v ∈ S) : (fun w => s.shards w (s.place v)) = x.column := by
  rw [← h]
  funext w
  exact (if_pos hv).symm

/-- The counters of the share. -/
theorem column_eq (hv : v ∈ S) : (share S s v).column = fun w => s.shards w (s.place v) :=
  (column_of_share rfl hv).symm

end Shares

section

variable {G : CSR} {workers k : ℕ} {s t u : KCoreState} {env : KCoreCall → KCoreProg Unit} {v : ℕ}

/-- The vertices of a level, each with all slots into the level. -/
theorem Level.isCore (h : Level G workers k s) (hsymm : G.Symmetric) : IsCore G k s.active := by
  intro v hv
  have hlt := (h.bound v hv).1
  refine ⟨hlt, ?_⟩
  rw [← left_eq_degreeInto hsymm (fun u hu => Finset.mem_range.mpr (h.bound u hu).1) h.account hlt]
  exact h.le v hv

/-- A vertex of a larger core has slots left for it. -/
theorem Level.lt_left (h : Level G workers k s) (hsymm : G.Symmetric) {H : Finset ℕ} (hH : IsCore G (k + 1) H)
    (hv : v ∈ H) : k < left G s v := by
  have haccount : ∑ u ∈ s.active, G.slots u + 0 + s.processed = allSlots G := by
    rw [add_zero]
    exact h.account
  exact le_left hsymm hH (h.core H hH) haccount hv

section Fill

/-- What the selection of the frontier leaves of a vertex. -/
theorem selected_active {x : Share} : (selected k x).active = true ↔ x.active = true ∧ x.coreness ≠ k := by
  unfold selected
  split
  · next h => simp [h]
  · next h => simp [h]

/-- A vertex is selected into the frontier if its coreness is the level. -/
theorem selected_frontier {x : Share} (hx : x.frontier = false) :
    (selected k x).frontier = true ↔ x.coreness = k := by
  unfold selected
  split
  · next h => simp [h]
  · next h => simp [h, hx]

/-- Selecting a vertex keeps the rest of its share. -/
theorem selected_rest {x : Share} : (selected k x).coreness = x.coreness ∧ (selected k x).sampled = x.sampled ∧
    (selected k x).next = x.next ∧ (selected k x).column = x.column := by
  unfold selected
  split <;> exact ⟨rfl, rfl, rfl, rfl⟩

/-- The state `u` when the frontier has taken the vertices counted `k` in the state `s`. -/
structure Filled (k : ℕ) (s u : KCoreState) : Prop where
  moved : Moved s u
  active : ∀ v, v ∈ u.active ↔ v ∈ s.active ∧ s.coreness v ≠ k
  frontier : ∀ v, v ∈ u.frontier ↔ v ∈ s.active ∧ s.coreness v = k
  next : u.nextFrontier = s.nextFrontier
  sampleMode : u.sampleMode = s.sampleMode
  coreness : ∀ v, u.coreness v = s.coreness v
  column : ∀ v ∈ s.sampleMode, (fun w => u.shards w (u.place v)) = fun w => s.shards w (s.place v)

/-- When every vertex has been selected the frontier is filled. -/
theorem Filled.of_done (hfrontier : s.frontier = ∅) (hle : s.sampleMode ⊆ s.active)
    (hduring : During s.sampleMode s.active s (SelectWay s.sampleMode s) u)
    (hdone : ∀ v ∈ s.active, share s.sampleMode u v = selected k (share s.sampleMode s v)) : Filled k s u := by
  have hrest (v : ℕ) : u.coreness v = s.coreness v ∧ (v ∈ u.sampleMode ↔ v ∈ s.sampleMode) ∧
      (v ∈ u.nextFrontier ↔ v ∈ s.nextFrontier) ∧
        (v ∈ s.sampleMode → (fun w => u.shards w (u.place v)) = fun w => s.shards w (s.place v)) := by
    by_cases hv : v ∈ s.active
    · have hshare := hdone v hv
      obtain ⟨h₁, h₂, h₃, h₄⟩ := selected_rest (k := k) (x := share s.sampleMode s v)
      refine ⟨(congrArg Share.coreness hshare).trans h₁, ?_, ?_, fun hmem => ?_⟩
      · rw [mem_sampleMode_of_share hshare, h₂, ← mem_sampleMode_of_share rfl]
      · rw [mem_next_of_share hshare, h₃, ← mem_next_of_share rfl]
      · rw [column_of_share hshare hmem, h₄, column_eq hmem]
    · have hshare := hduring.other v hv
      refine ⟨congrArg Share.coreness hshare, ?_, ?_, fun hmem => absurd (hle hmem) hv⟩
      · rw [mem_sampleMode_of_share hshare, ← mem_sampleMode_of_share rfl]
      · rw [mem_next_of_share hshare, ← mem_next_of_share rfl]
  refine {
    moved := hduring.moved
    active := fun v => ?_
    frontier := fun v => ?_
    next := Finset.ext fun v => (hrest v).2.2.1
    sampleMode := Finset.ext fun v => (hrest v).2.1
    coreness := fun v => (hrest v).1
    column := fun v => (hrest v).2.2.2 }
  · by_cases hv : v ∈ s.active
    · rw [mem_active_of_share (hdone v hv), selected_active, ← mem_active_of_share rfl]
      rfl
    · rw [mem_active_of_share (hduring.other v hv), ← mem_active_of_share rfl]
      exact iff_of_false hv fun hmem => hv hmem.1
  · by_cases hv : v ∈ s.active
    · have hnone : (share s.sampleMode s v).frontier = false := by
        refine decide_eq_false ?_
        rw [hfrontier]
        exact Finset.notMem_empty v
      rw [mem_frontier_of_share (hdone v hv), selected_frontier hnone]
      exact (and_iff_right hv).symm
    · rw [mem_frontier_of_share (hduring.other v hv), ← mem_frontier_of_share rfl, hfrontier]
      exact iff_of_false (Finset.notMem_empty v) fun hmem => hv hmem.1

/-- A sampled vertex has more than `k` slots left. -/
theorem Level.lt_left_of_sampled (h : Level G workers k s) (hw : 0 < workers) (hv : v ∈ s.sampleMode) :
    k < left G s v := by
  have := (h.sampled v hv).pos hw
  omega

/-- The frontier passes over a sampled vertex. -/
theorem Level.coreness_ne_of_sampled (h : Level G workers k s) (hsymm : G.Symmetric) (hw : 0 < workers)
    (hv : v ∈ s.sampleMode) : s.coreness v ≠ k := by
  have hle := left_le_degree (s := s) hsymm (h.bound v (h.sample_le hv)).1
  have hlt := h.lt_left_of_sampled hw hv
  rw [h.stale v hv]
  omega

/-- The frontier takes the vertices with `k` slots left. -/
theorem Level.coreness_eq_iff (h : Level G workers k s) (hsymm : G.Symmetric) (hw : 0 < workers)
    (hv : v ∈ s.active) :
    s.coreness v = k ↔ left G s v = k := by
  by_cases hs : v ∈ s.sampleMode
  · exact iff_of_false (h.coreness_ne_of_sampled hsymm hw hs) (h.lt_left_of_sampled hw hs).ne'
  · rw [h.count v hv hs]

/-- A round follows on a level once its frontier is filled. -/
theorem Level.fill (h : Level G workers k s) (hsymm : G.Symmetric) (hw : 0 < workers) (hfill : Filled k s u) :
    Round G workers k u := by
  have hleft (v : ℕ) : left G u v = left G s v := hfill.moved.left_eq G v
  have hactive := hfill.active
  have hfrontier := hfill.frontier
  refine {
    bound := fun v hv => h.bound v (hv.elim (fun hv => ((hactive v).mp hv).1) fun hv => ((hfrontier v).mp hv).1)
    disjoint := fun v hv hv' => ((hactive v).mp hv').2 ((hfrontier v).mp hv).2
    next := hfill.next.trans h.next
    resample := hfill.moved.resample.trans h.resample
    account := ?_
    sample_le := fun v hv => ?_
    inj := ?_
    above := fun v hv => ?_
    count := fun v hv hmem => ?_
    stale := fun v hv => ?_
    sampled := fun v hv => ?_
    level := ⟨s.active, h.isCore hsymm, fun v hv => ((hactive v).mp hv).1, fun v hv => ((hfrontier v).mp hv).1⟩
    core := fun H hH v hv => ?_
    done := fun v hv hmem => ?_ }
  · have hdisjoint : Disjoint u.active u.frontier :=
      Finset.disjoint_left.mpr fun v hv hv' => ((hactive v).mp hv).2 ((hfrontier v).mp hv').2
    have hunion : u.active ∪ u.frontier = s.active := by
      ext v
      rw [Finset.mem_union, hactive, hfrontier]
      tauto
    rw [← Finset.sum_union hdisjoint, hunion, hfill.moved.processed]
    exact h.account
  · rw [hfill.sampleMode] at hv
    exact (hactive v).mpr ⟨h.sample_le hv, h.coreness_ne_of_sampled hsymm hw hv⟩
  · rw [hfill.moved.place, hfill.sampleMode]
    exact h.inj
  · obtain ⟨hv, hk⟩ := (hactive v).mp hv
    rw [hleft]
    exact lt_of_le_of_ne (h.le v hv) fun heq => hk ((h.coreness_eq_iff hsymm hw hv).mpr heq.symm)
  · rw [hfill.sampleMode] at hmem
    rw [hfill.coreness, hleft]
    exact h.count v ((hactive v).mp hv).1 hmem
  · rw [hfill.sampleMode] at hv
    rw [hfill.coreness]
    exact h.stale v hv
  · rw [hfill.sampleMode] at hv
    rw [hfill.column v hv, hleft]
    exact h.sampled v hv
  · have hv' : v ∈ s.active := h.core H hH hv
    have hlt := h.lt_left hsymm hH hv
    exact (hactive v).mpr ⟨hv', fun hk => hlt.ne' ((h.coreness_eq_iff hsymm hw hv').mp hk)⟩
  · rw [hfill.coreness]
    by_cases hv' : v ∈ s.active
    · have hk : s.coreness v = k := by
        by_contra hne
        exact hmem ((hactive v).mpr ⟨hv', hne⟩)
      rw [hk]
      refine isCoreness_of_mem (h.isCore hsymm) hv' fun H hH hmem' => ?_
      exact (h.lt_left hsymm hH hmem').ne' ((h.coreness_eq_iff hsymm hw hv').mp hk)
    · exact h.done v hv hv'

end Fill

section Lower

/-- The state `u` when `k` has been raised in the state `s`: a sampled vertex is counted above the new
`k`, or it has left `sample_mode` with its count. -/
structure Lowered (G : CSR) (workers k : ℕ) (s u : KCoreState) : Prop where
  moved : Moved s u
  active : u.active = s.active
  frontier : u.frontier = s.frontier
  next : u.nextFrontier = s.nextFrontier
  sample_le : u.sampleMode ⊆ s.sampleMode
  kept : ∀ v ∈ u.sampleMode, u.coreness v = s.coreness v ∧
    Counted workers ((left G s v : ℤ) - k) fun w => u.shards w (u.place v)
  out : ∀ v ∈ s.sampleMode, v ∉ u.sampleMode → u.coreness v = left G s v
  other : ∀ v ∉ s.sampleMode, u.coreness v = s.coreness v

/-- A share from which the sets other than `sample_mode` have not been changed. -/
theorem sets_of_share {S : Finset ℕ} {x : Share} (h : share S u v = x) (hactive : x.active = (share S s v).active)
    (hfrontier : x.frontier = (share S s v).frontier) (hnext : x.next = (share S s v).next) :
    (v ∈ u.active ↔ v ∈ s.active) ∧ (v ∈ u.frontier ↔ v ∈ s.frontier) ∧
    (v ∈ u.nextFrontier ↔ v ∈ s.nextFrontier) := by
  rw [mem_active_of_share h, mem_frontier_of_share h, mem_next_of_share h, hactive, hfrontier, hnext,
    ← mem_active_of_share rfl, ← mem_frontier_of_share rfl, ← mem_next_of_share rfl]
  exact ⟨Iff.rfl, Iff.rfl, Iff.rfl⟩

/-- When every vertex has been lowered the counters are lowered. -/
theorem Lowered.of_done (hduring : During s.sampleMode s.sampleMode s (LowerWay G s) u)
    (hdone : ∀ v ∈ s.sampleMode, LowerDone G workers k s.sampleMode s v (share s.sampleMode u v)) :
    Lowered G workers k s u := by
  have hsampled (v : ℕ) (hv : v ∈ s.sampleMode) :
      ((v ∈ u.active ↔ v ∈ s.active) ∧ (v ∈ u.frontier ↔ v ∈ s.frontier) ∧
        (v ∈ u.nextFrontier ↔ v ∈ s.nextFrontier)) ∧
      (v ∈ u.sampleMode ∧ u.coreness v = s.coreness v ∧
          Counted workers ((left G s v : ℤ) - k) (fun w => u.shards w (u.place v)) ∨
        v ∉ u.sampleMode ∧ u.coreness v = left G s v) := by
    have hd := hdone v hv
    generalize hx : share s.sampleMode u v = x at hd
    cases hd with
    | kept column hcolumn =>
      refine ⟨sets_of_share hx rfl rfl rfl, Or.inl ⟨?_, congrArg Share.coreness hx, ?_⟩⟩
      · rw [mem_sampleMode_of_share hx]
        exact decide_eq_true hv
      · rw [column_of_share hx hv]
        exact hcolumn
    | counted column =>
      refine ⟨sets_of_share hx rfl rfl rfl, Or.inr ⟨?_, congrArg Share.coreness hx⟩⟩
      rw [mem_sampleMode_of_share hx]
      exact Bool.false_ne_true
  have hother (v : ℕ) (hv : v ∉ s.sampleMode) : share s.sampleMode u v = share s.sampleMode s v :=
    hduring.other v hv
  have hsets (v : ℕ) :
      (v ∈ u.active ↔ v ∈ s.active) ∧ (v ∈ u.frontier ↔ v ∈ s.frontier) ∧
        (v ∈ u.nextFrontier ↔ v ∈ s.nextFrontier) := by
    by_cases hv : v ∈ s.sampleMode
    · exact (hsampled v hv).1
    · exact sets_of_share (hother v hv) rfl rfl rfl
  have hle : u.sampleMode ⊆ s.sampleMode := fun v hv => by
    by_contra hnot
    exact hnot ((mem_sampleMode_of_share (hother v hnot)).mp hv |> (mem_sampleMode_of_share rfl).mpr)
  exact {
    moved := hduring.moved
    active := Finset.ext fun v => (hsets v).1
    frontier := Finset.ext fun v => (hsets v).2.1
    next := Finset.ext fun v => (hsets v).2.2
    sample_le := hle
    kept := fun v hv => ((hsampled v (hle hv)).2.resolve_right fun h => h.1 hv).2
    out := fun v hv hnot => ((hsampled v hv).2.resolve_left fun h => hnot h.1).2
    other := fun v hv => congrArg Share.coreness (hother v hv) }

/-- Only shards change while `k` goes down again. -/
theorem During.raise {u' : KCoreState} (hduring : During u.sampleMode u.sampleMode u (RaiseWay u.sampleMode u) u')
    (v : ℕ) :
    ((v ∈ u'.active ↔ v ∈ u.active) ∧ (v ∈ u'.frontier ↔ v ∈ u.frontier) ∧
      (v ∈ u'.nextFrontier ↔ v ∈ u.nextFrontier)) ∧
      (v ∈ u'.sampleMode ↔ v ∈ u.sampleMode) ∧ u'.coreness v = u.coreness v := by
  have hshare : ∃ column, share u.sampleMode u' v = { share u.sampleMode u v with column := column } := by
    by_cases hv : v ∈ u.sampleMode
    · exact hduring.way v hv
    · exact ⟨(share u.sampleMode u v).column, hduring.other v hv⟩
  obtain ⟨column, hx⟩ := hshare
  refine ⟨sets_of_share hx rfl rfl rfl, ?_, congrArg Share.coreness hx⟩
  rw [mem_sampleMode_of_share hx]
  exact decide_eq_true_iff

/-- `k` goes down again. -/
theorem Lowered.raise {k' : ℕ} {u' : KCoreState} (h : Lowered G workers k s u)
    (hduring : During u.sampleMode u.sampleMode u (RaiseWay u.sampleMode u) u')
    (hdone : ∀ v ∈ u.sampleMode, RaiseDone workers (fun v => (left G s v : ℤ) - k') u.sampleMode u v
      (share u.sampleMode u' v)) :
    Lowered G workers k' s u' := by
  have hsets := hduring.raise
  have hsample : u'.sampleMode = u.sampleMode := Finset.ext fun v => (hsets v).2.1
  exact {
    moved := ⟨hduring.moved.place.trans h.moved.place, hduring.moved.resample.trans h.moved.resample,
      hduring.moved.processed.trans h.moved.processed⟩
    active := (Finset.ext fun v => (hsets v).1.1).trans h.active
    frontier := (Finset.ext fun v => (hsets v).1.2.1).trans h.frontier
    next := (Finset.ext fun v => (hsets v).1.2.2).trans h.next
    sample_le := by
      rw [hsample]
      exact h.sample_le
    kept := fun v hv => by
      rw [hsample] at hv
      refine ⟨(hsets v).2.2.trans (h.kept v hv).1, ?_⟩
      obtain ⟨column, hx, hcounted⟩ := hdone v hv
      rw [column_of_share hx hv]
      exact hcounted
    out := fun v hv hnot => by
      rw [hsample] at hnot
      exact (hsets v).2.2.trans (h.out v hv hnot)
    other := fun v hv => (hsets v).2.2.trans (h.other v hv) }

/-- The level of which all active vertices are, when `k` has been raised by no more than that. -/
theorem Lowered.level {k₀ : ℕ} (h : Lowered G workers k s u) (hround : Round G workers k₀ s)
    (hfrontier : s.frontier = ∅)
    (hle : ∀ v ∈ s.active, k ≤ left G s v) (hk : k₀ ≤ k) : Level G workers k u where
  bound v hv := by
    rw [h.active] at hv
    exact hround.bound v (Or.inl hv)
  frontier := h.frontier.trans hfrontier
  next := h.next.trans hround.next
  resample := h.moved.resample.trans hround.resample
  account := by
    have haccount := hround.account
    rw [hfrontier, Finset.sum_empty, add_zero] at haccount
    rw [h.active, h.moved.processed]
    exact haccount
  sample_le := by
    rw [h.active]
    exact h.sample_le.trans hround.sample_le
  inj := by
    rw [h.moved.place]
    exact hround.inj.mono (Finset.coe_subset.mpr h.sample_le)
  le v hv := by
    rw [h.active] at hv
    rw [h.moved.left_eq]
    exact hle v hv
  count v hv hnot := by
    rw [h.active] at hv
    rw [h.moved.left_eq]
    by_cases hs : v ∈ s.sampleMode
    · exact h.out v hs hnot
    · exact (h.other v hs).trans (hround.count v hv hs)
  stale v hv := (h.kept v hv).1.trans (hround.stale v (h.sample_le hv))
  sampled v hv := by
    rw [h.moved.left_eq]
    exact (h.kept v hv).2
  core H hH := by
    rw [h.active]
    exact hround.core H (hH.mono (by omega))
  done v hv hnot := by
    rw [h.active] at hnot
    rw [h.other v fun hs => hnot (hround.sample_le hs)]
    exact hround.done v hv hnot

end Lower

section Settle

/-- The state `t` when a frontier has been peeled from the state `s`. -/
abbrev Peeled (G : CSR) (workers k : ℕ) (s t : KCoreState) : Prop := PeelInv G workers k s t 0 0 0 0 0

/-- What becomes of a vertex when the vertices of which a shard has run out are looked at: it stays as
it was, it has left `sample_mode` with its count, or it has been put into the next frontier. -/
inductive Fate (G : CSR) (workers k : ℕ) (t u : KCoreState) (v : ℕ) : Prop
  | kept (hactive : v ∈ u.active ↔ v ∈ t.active) (hnext : v ∈ u.nextFrontier ↔ v ∈ t.nextFrontier)
      (hsampled : v ∈ u.sampleMode ↔ v ∈ t.sampleMode) (hcoreness : u.coreness v = t.coreness v)
      (hcounted : v ∈ t.sampleMode → Counted workers ((left G t v : ℤ) - k) fun w => u.shards w (u.place v))
  | counted (hsample : v ∈ t.sampleMode) (hactive : v ∈ u.active) (hnext : v ∉ u.nextFrontier)
    (hnot : v ∉ u.sampleMode) (hcoreness : u.coreness v = left G t v) (hleft : k < left G t v)
  | peeled (hsample : v ∈ t.sampleMode) (hactive : v ∉ u.active) (hnext : v ∈ u.nextFrontier)
    (hnot : v ∉ u.sampleMode) (hcoreness : u.coreness v = k) (hleft : left G t v ≤ k)

variable (hpeel : Peeled G workers k s t)
include hpeel

/-- A vertex that is not sampled again is counted. -/
theorem Peeled.counted (hv : v ∈ s.sampleMode) (hnot : v ∉ t.resample) :
    Counted workers ((left G t v : ℤ) - k) fun w => t.shards w (t.place v) := by
  obtain ⟨_, hsum, hpos⟩ := hpeel.sampled v hv
  rw [hpeel.place]
  refine ⟨hpos.resolve_right fun h => ?_, hsum⟩
  exact h.elim hnot (Multiset.notMem_zero v)

/-- The vertices to be sampled again are sampled. -/
theorem Peeled.resample_le : t.resample ⊆ s.sampleMode := fun v hv => hpeel.resample v (Or.inl hv)

/-- A vertex that is not sampled is active if it has more than `k` slots left. -/
theorem Peeled.live (hv : v ∈ s.active) (hnot : v ∉ s.sampleMode) : k < left G t v ↔ v ∈ t.active :=
  (PeelInv.live hpeel v hv hnot).trans (and_iff_left (Multiset.notMem_zero v))

/-- The coreness of an active vertex is what is left of it, but at least the level. -/
theorem Peeled.coreness (hv : v ∈ s.active) (hnot : v ∉ s.sampleMode) : t.coreness v = max k (left G t v) :=
  (PeelInv.count hpeel v hv hnot).1

/-- The slots are accounted for after the peeling. -/
theorem Peeled.account : ∑ u ∈ t.active, G.slots u + ∑ u ∈ t.nextFrontier, G.slots u + t.processed =
    allSlots G := by
  have haccount := PeelInv.account hpeel
  rwa [Multiset.map_zero, Multiset.sum_zero, add_zero, add_zero] at haccount

/-- A core of the next level stays active. -/
theorem Peeled.core {H : Finset ℕ} (hH : IsCore G (k + 1) H) : H ⊆ t.active :=
  fun v hv => (PeelInv.core hpeel H hH v hv).1

/-- Every sampled vertex meets its fate. -/
theorem Peeled.fate {t₁ : KCoreState} (ht₁ : t₁ = { t with resample := ∅ })
    (hduring : During s.sampleMode t.resample t₁ (SettleWay G k t₁) u)
    (hdone : ∀ v ∈ t.resample, SettleDone G workers k s.sampleMode t₁ v (share s.sampleMode u v)) (v : ℕ) :
    Fate G workers k t u v := by
  have hsample : t.sampleMode = s.sampleMode := hpeel.sampleMode
  by_cases hv : v ∈ t.resample
  · have hs : v ∈ s.sampleMode := hpeel.resample_le hv
    have hactive : v ∈ t.active := (hpeel.sampled v hs).1
    have hnext : v ∉ t.nextFrontier := fun hmem => (hpeel.next v hmem).2.2 hactive
    have hd := hdone v hv
    generalize hx : share s.sampleMode u v = x at hd
    subst ht₁
    cases hd with
    | kept column hcolumn =>
      refine Fate.kept ?_ ?_ ?_ (congrArg Share.coreness hx) fun _ => ?_
      · rw [mem_active_of_share hx]
        exact decide_eq_true_iff
      · rw [mem_next_of_share hx]
        exact decide_eq_true_iff
      · rw [mem_sampleMode_of_share hx]
        exact decide_eq_true_iff
      · rw [column_of_share hx hs]
        exact hcolumn
    | counted hleft =>
      refine Fate.counted (hsample ▸ hs) ?_ ?_ ?_ (congrArg Share.coreness hx) hleft
      · rw [mem_active_of_share hx]
        exact decide_eq_true hactive
      · rw [mem_next_of_share hx]
        exact fun h => hnext (of_decide_eq_true h)
      · rw [mem_sampleMode_of_share hx]
        exact Bool.false_ne_true
    | peeled hleft =>
      refine Fate.peeled (hsample ▸ hs) ?_ ?_ ?_ (congrArg Share.coreness hx) hleft
      · rw [mem_active_of_share hx]
        exact Bool.false_ne_true
      · rw [mem_next_of_share hx]
      · rw [mem_sampleMode_of_share hx]
        exact Bool.false_ne_true
  · have hx := hduring.other v hv
    subst ht₁
    refine Fate.kept ?_ ?_ ?_ (congrArg Share.coreness hx) fun hs => ?_
    · rw [mem_active_of_share hx]
      exact decide_eq_true_iff
    · rw [mem_next_of_share hx]
      exact decide_eq_true_iff
    · rw [mem_sampleMode_of_share hx]
      exact decide_eq_true_iff
    · rw [hsample] at hs
      rw [column_of_share hx hs, column_eq hs]
      exact hpeel.counted hs hv

/-- A sampled vertex is active while a frontier is peeled. -/
theorem Peeled.sample_active {v : ℕ} (hv : v ∈ t.sampleMode) : v ∈ t.active ∧ v ∉ t.nextFrontier := by
  have hactive := (hpeel.sampled v (hpeel.sampleMode ▸ hv)).1
  exact ⟨hactive, fun hmem => (hpeel.next v hmem).2.2 hactive⟩

/-- What is active at the end was active before. -/
theorem Peeled.active_of_fate {v : ℕ} (hfate : Fate G workers k t u v) (hv : v ∈ u.active) : v ∈ t.active := by
  cases hfate with
  | kept hactive _ _ _ _ => exact hactive.mp hv
  | counted hs _ _ _ _ _ => exact (hpeel.sample_active hs).1
  | peeled _ hnot _ _ _ _ => exact absurd hv hnot

/-- What is in the next frontier at the end was active and is no longer. -/
theorem Peeled.next_of_fate {v : ℕ} (hfate : Fate G workers k t u v) (hv : v ∈ u.nextFrontier) :
    v ∈ s.active ∧ v ∉ u.active := by
  cases hfate with
  | kept hactive hnext _ _ _ =>
    obtain ⟨h₁, _, h₂⟩ := hpeel.next v (hnext.mp hv)
    exact ⟨h₁, fun hmem => h₂ (hactive.mp hmem)⟩
  | counted _ _ hnot _ _ _ => exact absurd hv hnot
  | peeled hs hnot _ _ _ _ => exact ⟨hpeel.active_le (hpeel.sample_active hs).1, hnot⟩

/-- A vertex that is sampled afterwards was sampled before, and it is counted again. -/
theorem Peeled.kept_of_fate {v : ℕ} (hfate : Fate G workers k t u v) (hv : v ∈ u.sampleMode) :
    v ∈ t.sampleMode ∧ v ∈ u.active ∧ u.coreness v = t.coreness v ∧
      Counted workers ((left G t v : ℤ) - k) fun w => u.shards w (u.place v) := by
  cases hfate with
  | kept hactive _ hmem hcoreness hcounted =>
    have hs := hmem.mp hv
    exact ⟨hs, hactive.mpr (hpeel.sample_active hs).1, hcoreness, hcounted hs⟩
  | counted _ _ _ hnot _ _ => exact absurd hv hnot
  | peeled _ _ _ hnot _ _ => exact absurd hv hnot

/-- A core of the next level stays active at the end. -/
theorem Peeled.core_of_fate {v : ℕ} (hsymm : G.Symmetric) (hfate : Fate G workers k t u v) {H : Finset ℕ}
    (hH : IsCore G (k + 1) H) (hv : v ∈ H) : v ∈ u.active := by
  cases hfate with
  | kept hactive _ _ _ _ => exact hactive.mpr (hpeel.core hH hv)
  | counted _ hmem _ _ _ _ => exact hmem
  | peeled _ _ _ _ _ hlow =>
    have hle : k + 1 ≤ left G t v := le_left hsymm hH (hpeel.core hH) hpeel.account hv
    omega

/-- A vertex that was active or in the next frontier is so at the end. -/
theorem Peeled.or_of_fate {v : ℕ} (hfate : Fate G workers k t u v) :
    v ∈ u.active ∨ v ∈ u.nextFrontier ↔ v ∈ t.active ∨ v ∈ t.nextFrontier := by
  cases hfate with
  | kept hactive hnext _ _ _ => rw [hactive, hnext]
  | counted hs hmem _ _ _ _ => exact iff_of_true (Or.inl hmem) (Or.inl (hpeel.sample_active hs).1)
  | peeled hs _ hmem _ _ _ => exact iff_of_true (Or.inr hmem) (Or.inl (hpeel.sample_active hs).1)

/-- More edges than the level are left of an active vertex. -/
theorem Peeled.lt_left_of_fate {v : ℕ} (hw : 0 < workers) (hfate : Fate G workers k t u v) (hv : v ∈ u.active) :
    k < left G t v := by
  have hv' : v ∈ t.active := hpeel.active_of_fate hfate hv
  cases hfate with
  | kept _ _ _ _ hcounted =>
    by_cases hs : v ∈ t.sampleMode
    · have := (hcounted hs).pos hw
      omega
    · exact (hpeel.live (hpeel.active_le hv') fun h => hs (hpeel.sampleMode ▸ h)).mpr hv'
  | counted _ _ _ _ _ hlow => exact hlow
  | peeled _ hnot _ _ _ _ => exact absurd hv hnot

/-- A vertex that is active and not sampled has its count in `coreness`. -/
theorem Peeled.count_of_fate {v : ℕ} (hfate : Fate G workers k t u v) (hv : v ∈ u.active)
    (hnot : v ∉ u.sampleMode) :
    u.coreness v = left G t v := by
  have hv' : v ∈ t.active := hpeel.active_of_fate hfate hv
  cases hfate with
  | kept _ _ hmem hcoreness _ =>
    have hs : v ∉ s.sampleMode := fun hs => hnot (hmem.mpr (hpeel.sampleMode ▸ hs))
    have hlt := (hpeel.live (hpeel.active_le hv') hs).mpr hv'
    exact (hcoreness.trans (hpeel.coreness (hpeel.active_le hv') hs)).trans (max_eq_right hlt.le)
  | counted _ _ _ _ hcoreness _ => exact hcoreness
  | peeled _ hnot' _ _ _ _ => exact absurd hv hnot'

/-- A vertex that stops being active is left with `k`. -/
theorem Peeled.coreness_of_fate {v : ℕ} (hfate : Fate G workers k t u v) (hs : v ∈ s.active)
    (hnot : v ∉ u.active) :
    u.coreness v = k := by
  cases hfate with
  | kept hactive _ _ hcoreness _ =>
    have hnot' : v ∉ t.active := fun hmem => hnot (hactive.mpr hmem)
    have hsample : v ∉ s.sampleMode := fun hmem => hnot' (hpeel.sampled v hmem).1
    have hlow : ¬k < left G t v := fun hlt => hnot' ((hpeel.live hs hsample).mp hlt)
    exact (hcoreness.trans (hpeel.coreness hs hsample)).trans (max_eq_left (not_lt.mp hlow))
  | counted _ hmem _ _ _ _ => exact absurd hmem hnot
  | peeled _ _ _ _ hcoreness _ => exact hcoreness

/-- A vertex that was not active keeps its coreness. -/
theorem Peeled.same_of_fate {v : ℕ} (hfate : Fate G workers k t u v) (hs : v ∉ s.active) :
    u.coreness v = s.coreness v := by
  refine Eq.trans ?_ (hpeel.kept v (Or.inl hs))
  cases hfate with
  | kept _ _ _ hcoreness _ => exact hcoreness
  | counted hsample _ _ _ _ _ => exact absurd (hpeel.active_le (hpeel.sample_active hsample).1) hs
  | peeled hsample _ _ _ _ _ => exact absurd (hpeel.active_le (hpeel.sample_active hsample).1) hs

/-- The state at the end of a round. -/
theorem Peeled.round (h : Round G workers k s) (hsymm : G.Symmetric) (hw : 0 < workers)
    (hfate : ∀ v, Fate G workers k t u v) (hplace : u.place = t.place) (hresample : u.resample = ∅)
    (hprocessed : u.processed = t.processed)
    (hfrontier : u.frontier = ∅) :
    Round G workers k { u with frontier := u.nextFrontier, nextFrontier := u.frontier } := by
  have hsample : t.sampleMode = s.sampleMode := hpeel.sampleMode
  have hleft (v : ℕ) : left G { u with frontier := u.nextFrontier, nextFrontier := u.frontier } v =
    left G t v := by
    change G.countTo (allSlots G - u.processed) v = _
    rw [hprocessed]
    rfl
  have hactive {v : ℕ} (hv : v ∈ u.active) : v ∈ s.active := hpeel.active_le (hpeel.active_of_fate (hfate v) hv)
  have hnext {v : ℕ} (hv : v ∈ u.nextFrontier) : v ∈ s.active ∧ v ∉ u.active := hpeel.next_of_fate (hfate v) hv
  have hkept {v : ℕ} (hv : v ∈ u.sampleMode) := hpeel.kept_of_fate (hfate v) hv
  have hcore (H : Finset ℕ) (hH : IsCore G (k + 1) H) : H ⊆ u.active :=
    fun v hv => hpeel.core_of_fate hsymm (hfate v) hH hv
  obtain ⟨L, hL, hLactive, hLfrontier⟩ := h.level
  refine {
    bound := fun v hv => h.bound v (Or.inl (hv.elim hactive fun hv => (hnext hv).1))
    disjoint := fun v hv => (hnext hv).2
    next := hfrontier
    resample := hresample
    account := ?_
    sample_le := fun v hv => (hkept hv).2.1
    inj := ?_
    above := fun v hv => ?_
    count := fun v hv hnot => ?_
    stale := fun v hv => ?_
    sampled := fun v hv => ?_
    level := ⟨L, hL, fun v hv => hLactive (hactive hv), fun v hv => hLactive (hnext hv).1⟩
    core := hcore
    done := fun v hv hnot => ?_ }
  · have hdisjoint : Disjoint u.active u.nextFrontier := Finset.disjoint_left.mpr fun v hv hv' => (hnext hv').2 hv
    have hdisjoint' : Disjoint t.active t.nextFrontier :=
      Finset.disjoint_left.mpr fun v hv hv' => (hpeel.next v hv').2.2 hv
    have hunion : u.active ∪ u.nextFrontier = t.active ∪ t.nextFrontier := by
      ext v
      rw [Finset.mem_union, Finset.mem_union]
      exact hpeel.or_of_fate (hfate v)
    change ∑ v ∈ u.active, G.slots v + ∑ v ∈ u.nextFrontier, G.slots v + u.processed = _
    rw [← Finset.sum_union hdisjoint, hunion, hprocessed, Finset.sum_union hdisjoint']
    exact hpeel.account
  · change Set.InjOn u.place u.sampleMode
    rw [hplace, hpeel.place]
    exact h.inj.mono fun v hv => hsample ▸ (hkept hv).1
  · rw [hleft]
    exact hpeel.lt_left_of_fate hw (hfate v) hv
  · have hcount : u.coreness v = left G t v := hpeel.count_of_fate (hfate v) hv hnot
    exact hcount.trans (hleft v).symm
  · have hs : v ∈ s.sampleMode := hsample ▸ (hkept hv).1
    exact (hkept hv).2.2.1.trans ((hpeel.kept v (Or.inr hs)).trans (h.stale v hs))
  · rw [hleft]
    exact (hkept hv).2.2.2
  · change IsCoreness G v (u.coreness v)
    by_cases hs : v ∈ s.active
    · rw [hpeel.coreness_of_fate (hfate v) hs hnot]
      exact isCoreness_of_mem hL (hLactive hs) fun H hH hmem => hnot (hcore H hH hmem)
    · rw [hpeel.same_of_fate (hfate v) hs]
      exact h.done v hv hs

end Settle

end

end KCore

end ToggleTree
