import ToggleTree.KCore.Rounds

/-!
# The iterations of the main loops

An iteration of the outer loop raises `k`, to the least count or by one, and fills the frontier. The
full degrees of the sampled vertices stand in for their counts there, so that `k` may get too large;
it goes down again by as much as the worst vertex is below it. An iteration of the inner loop peels
the frontier.
-/

namespace ToggleTree

open ForkJoin ForkJoin.Prog

namespace KCore

/-- The inputs for which the decomposition is considered. -/
structure Input (G : CSR) (workers : ℕ) : Prop where
  symm : G.Symmetric
  degree_lt : ∀ v < G.n, G.degree v < 2 ^ 32
  workers_pos : 0 < workers
  workers_le : workers ≤ 8192

section

variable {G : CSR} {workers k noReduce : ℕ} {s t u : KCoreState} {v : ℕ} (hG : Input G workers)

section Peel

/-- All slots of the frontier are to be peeled. -/
theorem Round.start (h : Round G workers k s) :
    PeelInv G workers k s { s with frontier := ∅ } (∑ u ∈ s.frontier, G.slots u) 0 0 0 0 where
  frontier := rfl
  sampleMode := rfl
  place := rfl
  active_le := Finset.Subset.refl s.active
  nodup := by
    change (0 + 0 + s.nextFrontier.val).Nodup
    rw [h.next]
    exact Multiset.nodup_zero
  claimed v hv := absurd hv (Multiset.notMem_zero v)
  taken v hv := absurd hv (Multiset.notMem_zero v)
  next v hv := by
    change v ∈ s.nextFrontier at hv
    rw [h.next] at hv
    exact absurd hv (Finset.notMem_empty v)
  account := by
    change ∑ u ∈ s.active, G.slots u + ∑ u ∈ s.nextFrontier,
      G.slots u + (Multiset.map G.slots 0).sum + _ + s.processed = _
    rw [h.next, Finset.sum_empty, Multiset.map_zero, Multiset.sum_zero, add_zero, add_zero]
    exact h.account
  live v hv _ := iff_of_true (h.above v hv) ⟨hv, Multiset.notMem_zero v⟩
  count v hv hnot := by
    refine ⟨?_, Or.inl (Multiset.count_zero v)⟩
    rw [Multiset.count_zero, add_zero]
    exact (h.count v hv hnot).trans (max_eq_right (h.above v hv).le).symm
  kept _ _ := rfl
  sampled v hv := ⟨h.sample_le hv, (h.sampled v hv).2, Or.inl (h.sampled v hv).1⟩
  resample v hv := by
    rcases hv with hv | hv
    · change v ∈ s.resample at hv
      rw [h.resample] at hv
      exact absurd hv (Finset.notMem_empty v)
    · exact absurd hv (Multiset.notMem_zero v)
  core H hH v hv := ⟨h.core H hH hv, Multiset.notMem_zero v⟩

/-- What is known of the sampled vertices while a frontier is peeled. -/
structure Peeling.Shards (G : CSR) (workers k : ℕ) (s t : KCoreState) : Prop where
  sampleMode : t.sampleMode = s.sampleMode
  sum : ∀ v ∈ t.sampleMode, ∑ w ∈ Finset.range workers, t.shards w (t.place v) = (left G t v : ℤ) - k

include hG

/-- The invariant of the peeling holds at the start of an iteration. -/
theorem Round.peeling (h : Round G workers k s) (hne : s.frontier ≠ ∅) : Peeling G workers k s where
  symm := hG.symm
  degree_lt := hG.degree_lt
  workers_pos := hG.workers_pos
  level_lt := by
    obtain ⟨v, hv⟩ := Finset.nonempty_iff_ne_empty.mpr hne
    obtain ⟨L, hL, _, hfrontier⟩ := h.level
    have hlt := (h.bound v (Or.inr hv)).1
    exact ((hL v (hfrontier hv)).2.trans (degreeInto_le_degree L v)).trans_lt (hG.degree_lt v hlt)
  active_lt v hv := h.bound v (Or.inl hv)
  above v hv _ := (h.above v hv).trans_le (left_le_degree hG.symm (h.bound v (Or.inl hv)).1)
  inj := h.inj

/-- Peeling the frontier ends with its vertices peeled, and the counters are right throughout. -/
theorem throughout_peelFrontier (h : Round G workers k s) (hne : s.frontier ≠ ∅) :
    Throughout (kCoreProcedures G workers) (Peeling.Shards G workers k s) (fun _ t => Peeled G workers k s t)
      (peelFrontier k) s := by
  have hP := h.peeling hG hne
  have hcall (v : ℕ) (hv : v ∈ s.frontier) :
      Ensures (peelProtocol G workers k s) (kCoreProcedures G workers) (fun _ _ b => True ∧ b = 0)
        (invoke (.search k 8 v)) { s with frontier := ∅ } (pending (G.slots v)) := by
    obtain ⟨hlt, hlt'⟩ := h.bound v (Or.inr hv)
    exact (Ensures.invoke (ensures_localSearch (fun _ _ => rfl) (fun _ _ => rfl) hP 8 _ v hlt hlt')).mono
      fun _ _ _ h => ⟨trivial, h⟩
  have hsearch := VertexSet.ensures_parallelEach (Q := fun _ _ => True) s.frontier (fun v => pending (G.slots v))
    (fun _ _ _ _ _ h => h) hcall
  have hsum : ∑ v ∈ s.frontier, pending (G.slots v) = (∑ v ∈ s.frontier, G.slots v, 0) :=
    (map_sum (AddMonoidHom.inl (Multiset ℕ) (Multiset ℕ × Multiset ℕ × Multiset ℕ × Multiset ℕ)) _ _).symm
  rw [hsum] at hsearch
  have hshards (t : KCoreState) (a : PeelClaims) (hinv : (peelProtocol G workers k s).inv t a) :
      Peeling.Shards G workers k s t := by
    refine ⟨PeelInv.sampleMode hinv, fun v hv => ?_⟩
    rw [PeelInv.sampleMode hinv] at hv
    rw [PeelInv.place hinv]
    exact (PeelInv.sampled hinv v hv).2.1
  refine Throughout.act ⟨rfl, fun v hv => (h.sampled v hv).2⟩ ?_
  refine (Throughout.of_ensures hsearch h.start hshards).mono (fun _ h => h) ?_
  rintro _ t ⟨_, hinv, _, rfl⟩
  exact hinv

end Peel

section Settle

/-- A vertex that has left `sample_mode` since `t` has its count, or `k` if it is to be peeled. -/
structure Settling (G : CSR) (k : ℕ) (t u : KCoreState) : Prop where
  left_eq : ∀ v, left G u v = left G t v
  coreness : ∀ v ∈ t.sampleMode, v ∉ u.sampleMode → u.coreness v = max k (left G t v)

/-- No vertex is put into the frontier while the samples are settled. -/
theorem frontier_of_settled {S I : Finset ℕ} (hfrontier : t.frontier = ∅)
    (hduring : During S I t (SettleWay G k t) u)
    (hdone : ∀ v ∈ I, SettleDone G workers k S t v (share S u v)) : u.frontier = ∅ := by
  refine Finset.eq_empty_of_forall_notMem fun v hv => ?_
  have hnone : v ∉ t.frontier := by
    rw [hfrontier]
    exact Finset.notMem_empty v
  by_cases hmem : v ∈ I
  · have hd := hdone v hmem
    generalize hx : share S u v = x at hd
    have hv' := (mem_frontier_of_share hx).mp hv
    cases hd with
    | kept _ _ => exact hnone (of_decide_eq_true hv')
    | counted _ => exact hnone (of_decide_eq_true hv')
    | peeled _ => exact hnone (of_decide_eq_true hv')
  · exact hnone (of_decide_eq_true ((mem_frontier_of_share (hduring.other v hmem)).mp hv))

include hG

/-- Settling the frontier ends at the start of the next iteration. -/
theorem throughout_settleFrontier (h : Round G workers k s) (hne : s.frontier ≠ ∅)
    (hpeel : Peeled G workers k s t) :
    Throughout (kCoreProcedures G workers) (Settling G k t)
      (fun _ u => Round G workers k u ∧ (∀ v, v ∈ u.active ∨ v ∈ u.frontier → v ∈ s.active) ∧
        ∀ v ∈ t.sampleMode, v ∉ u.sampleMode → left G t v ≤ k → v ∉ u.active ∧ v ∈ u.frontier)
      (settleFrontier workers k) t := by
  have hP := h.peeling hG hne
  have hsample : t.sampleMode = s.sampleMode := hpeel.sampleMode
  have hresample (v : ℕ) (hv : v ∈ t.resample) : v ∈ s.sampleMode := hpeel.resample_le hv
  generalize ht₁ : ({ t with resample := ∅ } : KCoreState) = t₁
  have hinj : Set.InjOn t₁.place s.sampleMode := by
    rw [← ht₁]
    change Set.InjOn t.place s.sampleMode
    rw [hpeel.place]
    exact h.inj
  have hleft (v : ℕ) : left G t₁ v = left G t v := by
    rw [← ht₁]
    rfl
  have hsampled (v : ℕ) (hv : v ∈ t.resample) : (share s.sampleMode t₁ v).sampled = true := by
    refine decide_eq_true ?_
    rw [← ht₁]
    change v ∈ t.sampleMode
    rw [hsample]
    exact hresample v hv
  have hcall (v : ℕ) (hv : v ∈ t.resample) :
      Ensures (phase s.sampleMode t.resample t₁ (SettleWay G k t₁)
          (SettleDone G workers k s.sampleMode t₁)).protocol (kCoreProcedures G workers)
            (fun _ _ a => True ∧ a = 0)
        (settleSample workers k v) t₁ {(v, share s.sampleMode t₁ v)} := by
    have hlt := (h.bound v (Or.inl (h.sample_le (hresample v hv)))).1
    refine ensures_settleSample hG.workers_pos hG.workers_le hinj (hresample v hv) hv (hsampled v hv)
      ((left_le_degree hG.symm hlt).trans_lt (hG.degree_lt v hlt)) hP.level_lt ?_
    rw [column_eq (hresample v hv), hleft, ← ht₁]
    change ∑ w ∈ Finset.range workers, t.shards w (t.place v) = _
    rw [hpeel.place]
    exact (hpeel.sampled v (hresample v hv)).2.1
  have hway (v : ℕ) (hv : v ∈ t.resample) : SettleWay G k t₁ v (share s.sampleMode t₁ v) := fun hfalse =>
    absurd ((hsampled v hv).symm.trans hfalse) Bool.noConfusion
  have hsettling (u : KCoreState) (hduring : During s.sampleMode t.resample t₁ (SettleWay G k t₁) u) :
      Settling G k t u := by
    refine ⟨fun v => (hduring.moved.left_eq G v).trans (hleft v), fun v hv hnot => ?_⟩
    by_cases hmem : v ∈ t.resample
    · rw [← hleft]
      exact hduring.way v hmem (decide_eq_false hnot)
    · refine absurd ((mem_sampleMode_of_share (hduring.other v hmem)).mpr (decide_eq_true ?_)) hnot
      rw [← ht₁]
      exact hv
  refine Throughout.bind (Q := fun _ u => During s.sampleMode t.resample t₁ (SettleWay G k t₁) u ∧
    ∀ v ∈ t.resample, SettleDone G workers k s.sampleMode t₁ v (share s.sampleMode u v)) ?_ ?_
  · refine Throughout.act ⟨fun _ => rfl, fun v hv hnot => absurd hv hnot⟩ ?_
    change Throughout _ _ _ (parallelEach (t.resample.sort (· ≤ ·)) (settleSample workers k))
      { t with resample := ∅ }
    rw [ht₁]
    exact (throughout_parallelEach hway hcall).mono hsettling fun _ _ h => h
  · rintro _ u ⟨hduring, hdone⟩
    have hfate := hpeel.fate ht₁.symm hduring hdone
    have hfrontier : u.frontier = ∅ := by
      refine frontier_of_settled ?_ hduring hdone
      rw [← ht₁]
      exact hpeel.frontier
    have hmoved := hduring.moved
    rw [← ht₁] at hmoved
    have hround :=
      hpeel.round h hG.symm hG.workers_pos hfate hmoved.place hmoved.resample hmoved.processed hfrontier
    have hstep := hsettling u hduring
    change Throughout _ _ _ (VertexSet.swap frontier nextFrontier) u
    rw [← bind_ret (VertexSet.swap frontier nextFrontier)]
    refine Throughout.act hstep (Throughout.ret ⟨hstep.left_eq, hstep.coreness⟩
      ⟨hround, fun v hv => ?_, fun v hv hnot hlow => ?_⟩)
    · exact hv.elim (fun hv => hpeel.active_le (hpeel.active_of_fate (hfate v) hv))
        fun hv => (hpeel.next_of_fate (hfate v) hv).1
    change v ∉ u.active ∧ v ∈ u.nextFrontier
    cases hfate v with
    | kept _ _ hmem _ _ => exact absurd (hmem.mpr hv) hnot
    | counted _ _ _ _ _ hlt => omega
    | peeled _ hactive hnext _ _ _ => exact ⟨hactive, hnext⟩

end Settle

section Raise

/-- The largest value, and none below 0. -/
theorem foldr_max (value : ℕ → ℤ) (vs : List ℕ) : 0 ≤ (vs.map value).foldr max 0 ∧
    (∀ v ∈ vs, value v ≤ (vs.map value).foldr max 0) ∧
      ((vs.map value).foldr max 0 = 0 ∨ ∃ v ∈ vs, value v = (vs.map value).foldr max 0) := by
  induction vs with
  | nil => exact ⟨le_rfl, fun v hv => absurd hv List.not_mem_nil, Or.inl rfl⟩
  | cons u vs ih =>
    obtain ⟨hpos, hle, hattained⟩ := ih
    rw [List.map_cons, List.foldr_cons]
    refine ⟨hpos.trans (le_max_right _ _), fun v hv => ?_, ?_⟩
    · rcases List.mem_cons.mp hv with rfl | hv
      · exact le_max_left _ _
      · exact (hle v hv).trans (le_max_right _ _)
    · rcases le_total (value u) ((vs.map value).foldr max 0) with h | h
      · rw [max_eq_right h]
        exact hattained.imp id fun ⟨v, hv, heq⟩ => ⟨v, List.mem_cons_of_mem u hv, heq⟩
      · rw [max_eq_left h]
        exact Or.inr ⟨u, List.mem_cons_self, rfl⟩

/-- By how much `k` may be raised: no count that is known exactly is exceeded, and the least one is met. -/
structure Raises (G : CSR) (k noReduce : ℕ) (s : KCoreState) (delta : ℕ) : Prop where
  pos : 0 < delta
  lt : k + delta < 2 ^ 32
  le : ∀ v ∈ s.active, v ∉ s.sampleMode → k + delta ≤ left G s v
  attained : noReduce = 0 → ∃ v ∈ s.active, s.coreness v = k + delta

/-- A vertex that has left `sample_mode` since `s` has its count. -/
structure Leaving (G : CSR) (s t : KCoreState) : Prop where
  left_eq : ∀ v, left G t v = left G s v
  coreness : ∀ v ∈ s.sampleMode, v ∉ t.sampleMode → t.coreness v = left G s v

/-- `k` has been set to the level of the active vertices. -/
structure Raised (G : CSR) (workers k₀ noReduce : ℕ) (s : KCoreState) (k : ℕ) (t : KCoreState) : Prop where
  level : Level G workers k t
  active : t.active = s.active
  lt : k₀ < k
  attained : noReduce = 0 → ∃ v ∈ t.active, left G t v = k

variable {delta : ℕ}

include hG in
/-- The counts of active vertices are above `k`, and those of sampled vertices may be too large. -/
theorem Round.coreness (h : Round G workers k s) (hv : v ∈ s.active) :
    k < left G s v ∧ left G s v ≤ s.coreness v ∧ s.coreness v < 2 ^ 32 := by
  have hlt := (h.bound v (Or.inl hv)).1
  have hle := left_le_degree (s := s) hG.symm hlt
  have hdegree := hG.degree_lt v hlt
  refine ⟨h.above v hv, ?_⟩
  by_cases hs : v ∈ s.sampleMode
  · rw [h.stale v hs]
    exact ⟨hle, hdegree⟩
  · rw [h.count v hv hs]
    exact ⟨le_rfl, hle.trans_lt hdegree⟩

include hG in
/-- The step to the next level is computed without a change. -/
theorem throughout_nextDelta (h : Round G workers k s) (hne : s.active ≠ ∅) :
    Throughout (kCoreProcedures G workers) (Leaving G s) (fun delta t => t = s ∧ Raises G k noReduce s delta)
      (nextDelta k noReduce) s := by
  have hhere : Leaving G s s := ⟨fun _ => rfl, fun v hv hnot => absurd hv hnot⟩
  obtain ⟨a, ha⟩ := Finset.nonempty_iff_ne_empty.mpr hne
  unfold nextDelta
  split
  · obtain ⟨m, hm⟩ := Finset.min_of_nonempty (Finset.Nonempty.image ⟨a, ha⟩ s.coreness)
    obtain ⟨v, hv, rfl⟩ := Finset.mem_image.mp (Finset.mem_of_min hm)
    have hmin (u : ℕ) (hu : u ∈ s.active) : s.coreness v ≤ s.coreness u :=
      Finset.min_le_of_eq (Finset.mem_image_of_mem _ hu) hm
    obtain ⟨habove, hle, hlt⟩ := h.coreness hG hv
    have hdelta : (((s.active.image s.coreness).min.untopD (2 ^ 32 - 1)) + (2 ^ 32 - k)) % 2 ^ 32 =
      s.coreness v - k := by
      rw [hm]
      change (s.coreness v + (2 ^ 32 - k)) % 2 ^ 32 = _
      rw [show s.coreness v + (2 ^ 32 - k) = s.coreness v - k + 2 ^ 32 by omega, Nat.add_mod_right,
        Nat.mod_eq_of_lt (by omega)]
    rw [← bind_ret (Prog.read _)]
    refine Throughout.act hhere (Throughout.ret hhere ⟨rfl, ?_⟩)
    dsimp only
    rw [hdelta]
    exact ⟨by omega, by omega, fun u hu hs => by
      have := hmin u hu
      rw [← h.count u hu hs]
      omega, fun _ => ⟨v, hv, by omega⟩⟩
  · next hr =>
    obtain ⟨habove, hle, hlt⟩ := h.coreness hG ha
    exact Throughout.ret hhere ⟨rfl, one_pos, by omega, fun u hu _ => h.above u hu, fun h₀ => absurd h₀ hr⟩

include hG in
/-- The reduction over the sampled vertices. -/
theorem throughout_lower (h : Round G workers k s) :
    Throughout (kCoreProcedures G workers) (Leaving G s)
      (fun down t => Lowered G workers (k + delta) s t ∧
        down = ((s.sampleMode.sort (· ≤ ·)).map fun v => max 0 (((k + delta : ℕ) : ℤ) - left G s v)).foldr max 0)
      (VertexSet.reduce sampleMode max 0 (lowerSample workers (k + delta) delta)) s := by
  have hhere : Leaving G s s := ⟨fun _ => rfl, fun v hv hnot => absurd hv hnot⟩
  have hsampled (v : ℕ) (hv : v ∈ s.sampleMode) : (share s.sampleMode s v).sampled = true := decide_eq_true hv
  have hcall (v : ℕ) (hv : v ∈ s.sampleMode) :
      Ensures (phase s.sampleMode s.sampleMode s (LowerWay G s)
          (LowerDone G workers (k + delta) s.sampleMode s)).protocol (kCoreProcedures G workers)
        (fun value _ a => value = max 0 (((k + delta : ℕ) : ℤ) - left G s v) ∧ a = 0)
        (lowerSample workers (k + delta) delta v) s {(v, share s.sampleMode s v)} := by
    have hlt := (h.bound v (Or.inl (h.sample_le hv))).1
    refine ensures_lowerSample hG.workers_pos hG.workers_le h.inj hv (hsampled v hv)
      ((left_le_degree hG.symm hlt).trans_lt (hG.degree_lt v hlt)) rfl ?_
    rw [column_eq hv]
    exact h.sampled v hv
  have hway (v : ℕ) (hv : v ∈ s.sampleMode) : LowerWay G s v (share s.sampleMode s v) := fun hfalse =>
    absurd ((hsampled v hv).symm.trans hfalse) Bool.noConfusion
  have hall := VertexSet.ensures_reduceEach max 0 _ s.sampleMode (fun v => {(v, share s.sampleMode s v)}) hcall
  refine Throughout.act hhere ((throughout_phase hway hall).mono (fun t hduring => ?_) ?_)
  · exact ⟨hduring.moved.left_eq G, fun v hv hnot => hduring.way v hv (decide_eq_false hnot)⟩
  · rintro down t ⟨hdown, hduring, hdone⟩
    exact ⟨Lowered.of_done hduring hdone, hdown⟩

include hG in
/-- `k` goes down by `down`. -/
theorem throughout_raise {k₀ : ℕ} {down : ℤ} (h : Round G workers k₀ s) (hlowered : Lowered G workers k s t)
    {k' : ℕ} (hdown : 0 ≤ down) (hk : (k' : ℤ) = k - down) :
    Throughout (kCoreProcedures G workers) (Leaving G s) (fun _ u => Lowered G workers k' s u)
      (VertexSet.forEach sampleMode (raiseSample workers down)) t := by
  have hinj : Set.InjOn t.place t.sampleMode := by
    rw [hlowered.moved.place]
    exact h.inj.mono (Finset.coe_subset.mpr hlowered.sample_le)
  have hcall (v : ℕ) (hv : v ∈ t.sampleMode) :
      Ensures (phase t.sampleMode t.sampleMode t (RaiseWay t.sampleMode t)
          (RaiseDone workers (fun v => (left G s v : ℤ) - k') t.sampleMode t)).protocol
            (kCoreProcedures G workers)
        (fun _ _ a => True ∧ a = 0) (raiseSample workers down v) t {(v, share t.sampleMode t v)} := by
    refine ensures_raiseSample hG.workers_pos hinj hv hdown ?_
    rw [column_eq hv, hk, show (left G s v : ℤ) - (k - down) - down = (left G s v : ℤ) - k by ring]
    exact (hlowered.kept v hv).2
  have hleaving (u : KCoreState) (hduring : During t.sampleMode t.sampleMode t (RaiseWay t.sampleMode t) u) :
      Leaving G s u := by
    refine ⟨fun v => (hduring.moved.left_eq G v).trans (hlowered.moved.left_eq G v), fun v hv hnot => ?_⟩
    obtain ⟨_, hsample, hcoreness⟩ := hduring.raise v
    exact hcoreness.trans (hlowered.out v hv fun hmem => hnot (hsample.mpr hmem))
  refine Throughout.act ⟨hlowered.moved.left_eq G, hlowered.out⟩ ?_
  refine (throughout_parallelEach (fun v _ => ⟨_, rfl⟩) hcall).mono hleaving ?_
  rintro _ u ⟨hduring, hdone⟩
  exact hlowered.raise hduring hdone

include hG in
/-- `k` is raised, and lowered again where it was too large for a sampled vertex. -/
theorem throughout_nextLevel (h : Round G workers k s) (hfrontier : s.frontier = ∅) (hne : s.active ≠ ∅) :
    Throughout (kCoreProcedures G workers) (Leaving G s) (fun k' t => Raised G workers k noReduce s k' t)
      (nextLevel workers k noReduce) s := by
  unfold nextLevel
  refine (throughout_nextDelta hG h hne).bind ?_
  rintro delta t₀ ⟨ht₀, hdelta⟩
  rw [ht₀, Nat.mod_eq_of_lt hdelta.lt]
  refine (throughout_lower hG h).bind ?_
  rintro down t ⟨hlowered, hdown⟩
  obtain ⟨hpos, hle, hattained⟩ :=
    foldr_max (fun v => max 0 (((k + delta : ℕ) : ℤ) - left G s v)) (s.sampleMode.sort (· ≤ ·))
  rw [← hdown] at hpos hle hattained
  have hvalue (v : ℕ) (hv : v ∈ s.sampleMode) : ((k + delta : ℕ) : ℤ) - left G s v ≤ down :=
    (le_max_right _ _).trans (hle v ((Finset.mem_sort _).mpr hv))
  -- whoever is furthest below the new `k` has this many slots left
  have hlevel (k' : ℕ) (hk : (k' : ℤ) = ((k + delta : ℕ) : ℤ) - down) :
      (∀ v ∈ s.active, k' ≤ left G s v) ∧ k < k' ∧ (noReduce = 0 → ∃ v ∈ s.active, left G s v = k') := by
    have hbelow (v : ℕ) (hv : v ∈ s.active) : k' ≤ left G s v := by
      by_cases hs : v ∈ s.sampleMode
      · have := hvalue v hs
        omega
      · have := hdelta.le v hv hs
        omega
    rcases hattained with hzero | ⟨v, hv, hmax⟩
    · refine ⟨hbelow, by have := hdelta.pos; omega, fun hr => ?_⟩
      obtain ⟨v, hv, hcoreness⟩ := hdelta.attained hr
      have hleft := (h.coreness hG hv).2.1
      have := hbelow v hv
      exact ⟨v, hv, by omega⟩
    · have hs := (Finset.mem_sort _).mp hv
      have habove := h.above v (h.sample_le hs)
      have hdelta' := hdelta.pos
      rcases le_total (((k + delta : ℕ) : ℤ) - left G s v) 0 with hlow | hlow
      · rw [max_eq_left hlow] at hmax
        refine ⟨hbelow, by omega, fun hr => ?_⟩
        obtain ⟨v, hv, hcoreness⟩ := hdelta.attained hr
        have hleft := (h.coreness hG hv).2.1
        have := hbelow v hv
        exact ⟨v, hv, by omega⟩
      · rw [max_eq_right hlow] at hmax
        exact ⟨hbelow, by omega, fun _ => ⟨v, h.sample_le hs, by omega⟩⟩
  have hraised (k' : ℕ) (u : KCoreState) (hk : (k' : ℤ) = ((k + delta : ℕ) : ℤ) - down)
    (hu : Lowered G workers k' s u) :
      Raised G workers k noReduce s k' u := by
    obtain ⟨hbelow, hlt, hex⟩ := hlevel k' hk
    refine ⟨hu.level h hfrontier hbelow hlt.le, hu.active, hlt, fun hr => ?_⟩
    obtain ⟨v, hv, hleft⟩ := hex hr
    exact ⟨v, by rwa [hu.active], by rwa [hu.moved.left_eq]⟩
  by_cases hzero : down = 0
  · rw [if_pos hzero]
    exact Throughout.ret ⟨hlowered.moved.left_eq G, hlowered.out⟩ (hraised (k + delta) t (by omega) hlowered)
  · rw [if_neg hzero]
    obtain ⟨a, ha⟩ := Finset.nonempty_iff_ne_empty.mpr hne
    have hnonneg : 0 ≤ ((k + delta : ℕ) : ℤ) - down := by
      rcases hattained with hzero' | ⟨v, _, hmax⟩
      · exact absurd hzero' hzero
      · have := hdelta.lt
        omega
    obtain ⟨k', hk'⟩ := Int.eq_ofNat_of_zero_le hnonneg
    have hvalue' : ((((k + delta : ℕ) : ℤ) - down) % 2 ^ 32).toNat = k' := by
      have hlt := hdelta.lt
      rw [Int.emod_eq_of_lt hnonneg (by omega), hk', Int.toNat_natCast]
    rw [hvalue']
    refine (throughout_raise hG h hlowered hpos hk'.symm).bind fun _ u hu => ?_
    exact Throughout.ret ⟨hu.moved.left_eq G, hu.out⟩ (hraised k' u hk'.symm hu)

end Raise

section Fill

include hG

/-- Filling the frontier ends at the start of the next iteration. -/
theorem throughout_fillFrontier (h : Level G workers k s) :
    Throughout (kCoreProcedures G workers) (fun t => t.sampleMode = s.sampleMode)
      (fun _ t => Round G workers k t ∧ t.active ⊆ s.active) (fillFrontier k noReduce) s := by
  have hcall (v : ℕ) (hv : v ∈ s.active) :
      Ensures (phase s.sampleMode s.active s (SelectWay s.sampleMode s)
          fun v x => x = selected k (share s.sampleMode s v)).protocol (kCoreProcedures G workers)
        (fun _ _ a => True ∧ a = 0) (selectVertex k v) s {(v, share s.sampleMode s v)} := ensures_selectVertex hv
  have hsample (t : KCoreState) (hduring : During s.sampleMode s.active s (SelectWay s.sampleMode s) t) :
      t.sampleMode = s.sampleMode := by
    refine Finset.ext fun v => ?_
    by_cases hv : v ∈ s.active
    · exact decide_eq_decide.mp (hduring.way v hv)
    · exact decide_eq_decide.mp (congrArg Share.sampled (hduring.other v hv))
  have hway (v : ℕ) (_ : v ∈ s.active) : SelectWay s.sampleMode s v (share s.sampleMode s v) := rfl
  have hphase := throughout_parallelEach hway hcall
  unfold fillFrontier
  refine Throughout.bind (Q := fun _ t => t.sampleMode = s.sampleMode ∧ Round G workers k t ∧
    t.active ⊆ s.active) ?_ fun _ t ht => Throughout.act ht.1 (Throughout.ret ht.1 ht.2)
  refine Throughout.act rfl (hphase.mono hsample ?_)
  rintro _ t ⟨hduring, hdone⟩
  have hfill : Filled k s t := Filled.of_done h.frontier h.sample_le hduring hdone
  exact ⟨hfill.sampleMode, h.fill hG.symm hG.workers_pos hfill, fun v hv => ((hfill.active v).mp hv).1⟩

end Fill

end

end KCore

end ToggleTree
