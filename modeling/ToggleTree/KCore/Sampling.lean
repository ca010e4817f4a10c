import ToggleTree.KCore.Start

/-!
# The vertices that are counted in shards

The iterations of the main loops follow one another, each from a state that the one before has left.
While a vertex is sampled, the sum of its shards is the number of its slots left above `k`, and when it
leaves `sample_mode` its count is the number of its slots left, or it is peeled.
-/

namespace ToggleTree

open ForkJoin ForkJoin.Prog

namespace KCore

/-- An iteration of a main loop starts in the state `s` of a run from `s₀`. -/
inductive Starts (G : CSR) (workers : ℕ) (s₀ : KCoreState) : KCoreCall → KCoreState → Prop
  | main {s : KCoreState} (run : Steps (kCoreProcedures G workers) (initialise G workers) s₀ (ret ()) s) :
      Starts G workers s₀ (.loop 0 (2 * log2 G.n % 2 ^ 32)) s
  | level {s t u : KCoreState} {k k' noReduce noReduce' : ℕ} (start : Starts G workers s₀ (.loop k noReduce) s)
      (hne : s.active ≠ ∅) (raise : Steps (kCoreProcedures G workers) (nextLevel workers k noReduce) s (ret k') t)
      (fill : Steps (kCoreProcedures G workers) (fillFrontier k' noReduce) t (ret noReduce') u) :
      Starts G workers s₀ (.rounds k' noReduce') u
  | round {s t u : KCoreState} {k noReduce : ℕ} (start : Starts G workers s₀ (.rounds k noReduce) s)
      (hne : s.frontier ≠ ∅) (peel : Steps (kCoreProcedures G workers) (peelFrontier k) s (ret ()) t)
      (settle : Steps (kCoreProcedures G workers) (settleFrontier workers k) t (ret ()) u) :
      Starts G workers s₀ (.rounds k noReduce) u
  | leave {s : KCoreState} {k noReduce : ℕ} (start : Starts G workers s₀ (.rounds k noReduce) s)
      (hempty : s.frontier = ∅) : Starts G workers s₀ (.loop k noReduce) s

/-- Where a run of the whole program stands: in the loops before the main loop, at the call of an
iteration or at its first test, in one of the parts of an iteration, or at its end. -/
inductive Stands (G : CSR) (workers : ℕ) (s₀ : KCoreState) : KCoreProg (ℕ → ℕ) → KCoreState → Prop
  | initialising {q : KCoreProg Unit} {s : KCoreState}
      (run : Steps (kCoreProcedures G workers) (initialise G workers) s₀ q s) :
      Stands G workers s₀ (q >>= fun _ => invoke (.loop 0 (2 * log2 G.n % 2 ^ 32)) >>= fun _ =>
        read KCoreState.coreness) s
  | called {c : KCoreCall} {s : KCoreState} (start : Starts G workers s₀ c s) :
      Stands G workers s₀ (invoke c >>= fun _ => read KCoreState.coreness) s
  | entered {c : KCoreCall} {s : KCoreState} (start : Starts G workers s₀ c s) :
      Stands G workers s₀ (kCoreProcedures G workers c >>= fun _ => read KCoreState.coreness) s
  | raising {q : KCoreProg ℕ} {s t : KCoreState} {k noReduce : ℕ}
    (start : Starts G workers s₀ (.loop k noReduce) s)
      (hne : s.active ≠ ∅) (run : Steps (kCoreProcedures G workers) (nextLevel workers k noReduce) s q t) :
      Stands G workers s₀ (q >>= fun k' => fillFrontier k' noReduce >>= fun noReduce' =>
        invoke (.rounds k' noReduce') >>= fun _ => read KCoreState.coreness) t
  | filling {q : KCoreProg ℕ} {s t u : KCoreState} {k k' noReduce : ℕ}
    (start : Starts G workers s₀ (.loop k noReduce) s)
      (hne : s.active ≠ ∅) (raise : Steps (kCoreProcedures G workers) (nextLevel workers k noReduce) s (ret k') t)
      (run : Steps (kCoreProcedures G workers) (fillFrontier k' noReduce) t q u) :
      Stands G workers s₀ (q >>= fun noReduce' => invoke (.rounds k' noReduce') >>= fun _ =>
        read KCoreState.coreness) u
  | peeling {q : KCoreProg Unit} {s t : KCoreState} {k noReduce : ℕ}
    (start : Starts G workers s₀ (.rounds k noReduce) s)
      (hne : s.frontier ≠ ∅) (run : Steps (kCoreProcedures G workers) (peelFrontier k) s q t) :
      Stands G workers s₀ (q >>= fun _ => settleFrontier workers k >>= fun _ =>
        invoke (.rounds k noReduce) >>= fun _ =>
        read KCoreState.coreness) t
  | settling {q : KCoreProg Unit} {s t u : KCoreState} {k noReduce : ℕ}
    (start : Starts G workers s₀ (.rounds k noReduce) s)
      (hne : s.frontier ≠ ∅) (peel : Steps (kCoreProcedures G workers) (peelFrontier k) s (ret ()) t)
      (run : Steps (kCoreProcedures G workers) (settleFrontier workers k) t q u) :
      Stands G workers s₀ (q >>= fun _ => invoke (.rounds k noReduce) >>= fun _ => read KCoreState.coreness) u
  | reading {s : KCoreState} : Stands G workers s₀ (read KCoreState.coreness) s
  | returned {coreness : ℕ → ℕ} {s : KCoreState} : Stands G workers s₀ (ret coreness) s

section

variable {G : CSR} {workers : ℕ} {s₀ s t : KCoreState} {p : KCoreProg (ℕ → ℕ)}

/-- A call is entered where it starts. -/
theorem Starts.step_called {c : KCoreCall} (h : Starts G workers s₀ c s)
    (hstep : Step (kCoreProcedures G workers) (invoke c >>= fun _ => read KCoreState.coreness) s p t) :
    Stands G workers s₀ p t := by
  obtain ⟨rfl, rfl⟩ := hstep
  exact Stands.entered h

/-- A call that has been entered goes on where it stands. -/
theorem Starts.step_entered {c : KCoreCall} (h : Starts G workers s₀ c s)
    (hstep : Step (kCoreProcedures G workers) (kCoreProcedures G workers c >>= fun _ =>
      read KCoreState.coreness) s p t) :
    Stands G workers s₀ p t := by
  cases c with
  | loop k noReduce =>
    obtain ⟨rfl, rfl⟩ := hstep
    by_cases hempty : active.get t = ∅
    · change Stands G workers s₀ ((if decide (active.get t = ∅) then _ else _) >>= _) t
      rw [if_pos (decide_eq_true hempty)]
      exact Stands.reading
    · change Stands G workers s₀ ((if decide (active.get t = ∅) then _ else _) >>= _) t
      rw [if_neg fun h => hempty (of_decide_eq_true h), bind_assoc]
      have hraising := Stands.raising h hempty (Steps.refl _ _)
      simp only [bind_assoc]
      exact hraising
  | rounds k noReduce =>
    obtain ⟨rfl, rfl⟩ := hstep
    by_cases hempty : frontier.get t = ∅
    · change Stands G workers s₀ ((if decide (frontier.get t = ∅) then _ else _) >>= _) t
      rw [if_pos (decide_eq_true hempty)]
      exact Stands.called (Starts.leave h hempty)
    · change Stands G workers s₀ ((if decide (frontier.get t = ∅) then _ else _) >>= _) t
      rw [if_neg fun h => hempty (of_decide_eq_true h), bind_assoc]
      have hpeeling := Stands.peeling h hempty (Steps.refl _ _)
      simp only [bind_assoc]
      exact hpeeling
  | search k layer v => cases h
  | drain k layer q => cases h

/-- The loop that raises the level goes on while it fills the frontier. -/
theorem Stands.step_filling {k k' noReduce : ℕ} {u : KCoreState} {q : KCoreProg ℕ}
    (start : Starts G workers s₀ (.loop k noReduce) s) (hne : s.active ≠ ∅)
    (raise : Steps (kCoreProcedures G workers) (nextLevel workers k noReduce) s (ret k') t)
    (run : Steps (kCoreProcedures G workers) (fillFrontier k' noReduce) t q u) {u' : KCoreState}
    (hstep : Step (kCoreProcedures G workers)
      (q >>= fun noReduce' => invoke (.rounds k' noReduce') >>= fun _ => read KCoreState.coreness) u p u') :
    Stands G workers s₀ p u' := by
  rcases step_bind hstep with ⟨noReduce', rfl, hnext⟩ | ⟨q', hq, rfl⟩
  · exact (Starts.level start hne raise run).step_called hnext
  · exact Stands.filling start hne raise (run.tail hq)

/-- The loop of an iteration goes on while it settles the frontier. -/
theorem Stands.step_settling {k noReduce : ℕ} {u : KCoreState} {q : KCoreProg Unit}
    (start : Starts G workers s₀ (.rounds k noReduce) s) (hne : s.frontier ≠ ∅)
    (peel : Steps (kCoreProcedures G workers) (peelFrontier k) s (ret ()) t)
    (run : Steps (kCoreProcedures G workers) (settleFrontier workers k) t q u) {u' : KCoreState}
    (hstep : Step (kCoreProcedures G workers)
      (q >>= fun _ => invoke (.rounds k noReduce) >>= fun _ => read KCoreState.coreness) u p u') :
    Stands G workers s₀ p u' := by
  rcases step_bind hstep with ⟨_, rfl, hnext⟩ | ⟨q', hq, rfl⟩
  · exact (Starts.round start hne peel run).step_called hnext
  · exact Stands.settling start hne peel (run.tail hq)

/-- Every step stays where the decomposition can stand. -/
theorem Stands.step {p' : KCoreProg (ℕ → ℕ)} (h : Stands G workers s₀ p s)
    (hstep : Step (kCoreProcedures G workers) p s p' t) : Stands G workers s₀ p' t := by
  cases h with
  | initialising run =>
    rcases step_bind hstep with ⟨_, rfl, hnext⟩ | ⟨q', hq, rfl⟩
    · exact (Starts.main run).step_called hnext
    · exact Stands.initialising (run.tail hq)
  | called start => exact start.step_called hstep
  | entered start => exact start.step_entered hstep
  | raising start hne run =>
    rcases step_bind hstep with ⟨k', rfl, hnext⟩ | ⟨q', hq, rfl⟩
    · exact Stands.step_filling start hne run (Steps.refl _ _) hnext
    · exact Stands.raising start hne (run.tail hq)
  | filling start hne raise run => exact Stands.step_filling start hne raise run hstep
  | peeling start hne run =>
    rcases step_bind hstep with ⟨_, rfl, hnext⟩ | ⟨q', hq, rfl⟩
    · exact Stands.step_settling start hne run (Steps.refl _ _) hnext
    · exact Stands.peeling start hne (run.tail hq)
  | settling start hne peel run => exact Stands.step_settling start hne peel run hstep
  | reading =>
    obtain ⟨rfl, rfl⟩ := hstep
    exact Stands.returned
  | returned => exact hstep.elim

/-- Every run of the program goes from iteration to iteration. -/
theorem stands_of_steps (run : Steps (kCoreProcedures G workers) (kCoreDecomposition G workers) s₀ p s) :
    Stands G workers s₀ p s := by
  induction run with
  | refl => exact Stands.initialising (Steps.refl _ _)
  | tail _ hstep ih => exact ih.step hstep

end

/-- The sum of the shards of `v`. -/
def shardSum (workers : ℕ) (s : KCoreState) (v : ℕ) : ℤ := ∑ w ∈ Finset.range workers, s.shards w (s.place v)

section

variable {G : CSR} {workers : ℕ} {s₀ s : KCoreState} {k noReduce : ℕ}

/-- What holds when an iteration starts. -/
def StartsWith (G : CSR) (workers : ℕ) : KCoreCall → KCoreState → Prop
  | .loop k _, s => Round G workers k s ∧ s.frontier = ∅
  | .rounds k _, s => Round G workers k s
  | _, _ => True

/-- Where a call starts its precondition holds. -/
theorem Starts.holds (hG : Input G workers) {c : KCoreCall} (h : Starts G workers s₀ c s) :
    StartsWith G workers c s := by
  induction h with
  | main run => exact ((total_initialise hG s₀).result run).1
  | level _ hne raise fill ih =>
    have hraised := (throughout_nextLevel hG ih.1 ih.2 hne).result raise
    exact ((throughout_fillFrontier hG hraised.level).result fill).1
  | round _ hne peel settle ih =>
    have hpeel := (throughout_peelFrontier hG ih hne).result peel
    exact ((throughout_settleFrontier hG ih hne hpeel).result settle).1
  | leave _ hempty ih => exact ⟨ih, hempty⟩

/-- When the outer loop starts an iteration, the slots left are those to active vertices. -/
theorem Round.left_eq_degreeInto (hG : Input G workers) (h : Round G workers k s)
    (hfrontier : s.frontier = ∅) {v : ℕ} (hv : v ∈ s.active) : left G s v = degreeInto G s.active v := by
  have haccount := h.account
  rw [hfrontier, Finset.sum_empty, add_zero] at haccount
  exact KCore.left_eq_degreeInto hG.symm (fun u hu => Finset.mem_range.mpr (h.bound u (Or.inl hu)).1) haccount
    (h.bound v (Or.inl hv)).1

end

/-- Every run goes from iteration to iteration. When the outer loop starts one, a sampled vertex is
active, all of its shards are positive, and their sum is the number of its slots to active vertices,
less `k`. While a frontier is peeled, the sum is the number of slots that name the vertex and have not
been processed, less `k`, and when all calls have returned, a vertex with sum 0 or less is in
`resample`. A vertex that then leaves `sample_mode` has its number of slots left as its count if this
is above `k`; otherwise its count is `k`, and it is put into the next frontier. A vertex that leaves
`sample_mode` when `k` is raised has its number of slots left as its count. The new `k` is no more than
the number of slots left of any active vertex, and that of some active vertex if `no_reduce` is 0. -/
theorem sampling_invariant (G : CSR) (workers : ℕ) (hsymm : G.Symmetric)
    (hdegree : ∀ v < G.n, G.degree v < 2 ^ 32) (hworkers : 1 ≤ workers) (hmax : workers ≤ 8192)
    (s₀ : KCoreState) :
    (∀ p s, Steps (kCoreProcedures G workers) (kCoreDecomposition G workers) s₀ p s → Stands G workers s₀ p s) ∧
    (∀ k noReduce s, Starts G workers s₀ (.loop k noReduce) s → ∀ v ∈ s.sampleMode,
      v ∈ s.active ∧ (∀ w < workers, 0 < s.shards w (s.place v)) ∧
        shardSum workers s v = (degreeInto G s.active v : ℤ) - k) ∧
    (∀ k noReduce s, Starts G workers s₀ (.rounds k noReduce) s → s.frontier ≠ ∅ →
      ∀ p t, Steps (kCoreProcedures G workers) (peelFrontier k) s p t →
        t.sampleMode = s.sampleMode ∧ (∀ v ∈ t.sampleMode, shardSum workers t v = (left G t v : ℤ) - k) ∧
        (p = ret () → (∀ v ∈ t.sampleMode, shardSum workers t v ≤ 0 → v ∈ t.resample) ∧
          ∀ q u, Steps (kCoreProcedures G workers) (settleFrontier workers k) t q u →
            ∀ v ∈ t.sampleMode, v ∉ u.sampleMode →
              (k < left G u v → u.coreness v = left G u v) ∧
              (left G u v ≤ k → u.coreness v = k ∧ (q = ret () → v ∉ u.active ∧ v ∈ u.frontier)))) ∧
    ∀ k noReduce s, Starts G workers s₀ (.loop k noReduce) s → s.active ≠ ∅ →
      ∀ q t, Steps (kCoreProcedures G workers) (nextLevel workers k noReduce) s q t →
        (∀ v ∈ s.sampleMode, v ∉ t.sampleMode → t.coreness v = left G t v) ∧
        ∀ k', q = ret k' → (∀ v ∈ t.active, k' ≤ left G t v) ∧ (noReduce = 0 → ∃ v ∈ t.active, left G t v = k') ∧
          ∀ p u, Steps (kCoreProcedures G workers) (fillFrontier k' noReduce) t p u →
            u.sampleMode = t.sampleMode := by
  have hG : Input G workers := ⟨hsymm, hdegree, hworkers, hmax⟩
  refine ⟨fun p s => stands_of_steps, fun k noReduce s hstart v hv => ?_,
    fun k noReduce s hstart hne p t hpeel => ?_,
    fun k noReduce s hstart hne q t hraise => ?_⟩
  · obtain ⟨hround, hfrontier⟩ := hstart.holds hG
    have hactive := hround.sample_le hv
    obtain ⟨hpos, hsum⟩ := hround.sampled v hv
    refine ⟨hactive, hpos, ?_⟩
    rw [← hround.left_eq_degreeInto hG hfrontier hactive]
    exact hsum
  · have hround : Round G workers k s := hstart.holds hG
    have hthroughout := (throughout_peelFrontier hG hround hne).steps hpeel
    refine ⟨hthroughout.here.sampleMode, hthroughout.here.sum, ?_⟩
    rintro rfl
    have hpeeled : Peeled G workers k s t := hthroughout.result (Steps.refl _ _)
    refine ⟨fun v hv hle => ?_, fun q u hsettle v hv hnot => ?_⟩
    · by_contra hmem
      rw [hpeeled.sampleMode] at hv
      have hcounted := hpeeled.counted hv hmem
      have hpos := hcounted.pos hworkers
      have hsum : shardSum workers t v = (left G t v : ℤ) - k := hcounted.2
      omega
    · have hsettling := (throughout_settleFrontier hG hround hne hpeeled).steps hsettle
      have hcoreness := hsettling.here.coreness v hv hnot
      rw [hsettling.here.left_eq]
      refine ⟨fun hlt => hcoreness.trans (max_eq_right hlt.le),
        fun hle => ⟨hcoreness.trans (max_eq_left hle), ?_⟩⟩
      rintro rfl
      exact (hsettling.result (Steps.refl _ _)).2.2 v hv hnot hle
  · obtain ⟨hround, hfrontier⟩ := hstart.holds hG
    have hthroughout := (throughout_nextLevel hG hround hfrontier hne).steps hraise
    refine ⟨fun v hv hnot => ?_, ?_⟩
    · rw [hthroughout.here.left_eq]
      exact hthroughout.here.coreness v hv hnot
    · rintro k' rfl
      have hraised := hthroughout.result (Steps.refl _ _)
      refine ⟨hraised.level.le, hraised.attained, fun p u hfill => ?_⟩
      exact ((throughout_fillFrontier hG hraised.level).steps hfill).here

/-- The main loop is reached with sampled vertices on a graph of two vertices with 8193 edges between them. -/
theorem sampling_invariant_parallelEdges :
    ∃ s, Starts (CSR.parallelEdges 8193) 2 ⟨fun _ => 0, ∅, ∅, ∅, ∅, ∅, fun _ => 0, fun _ _ => 0, 0⟩
        (.loop 0 (2 * log2 (CSR.parallelEdges 8193).n % 2 ^ 32)) s ∧
      ∀ v < 2, v ∈ s.sampleMode ∧ v ∈ s.active ∧ (∀ w < 2, 0 < s.shards w (s.place v)) ∧
        shardSum 2 s v = (degreeInto (CSR.parallelEdges 8193) s.active v : ℤ) - (0 : ℕ) := by
  have hsymm := CSR.symmetric_parallelEdges 8193
  have hdegree : ∀ v < (CSR.parallelEdges 8193).n, (CSR.parallelEdges 8193).degree v < 2 ^ 32 := fun v _ => by
    rw [CSR.degree_parallelEdges]
    norm_num
  have hG : Input (CSR.parallelEdges 8193) 2 := ⟨hsymm, hdegree, by decide, by decide⟩
  obtain ⟨_, s, run, hs⟩ :=
    (total_initialise hG ⟨fun _ => 0, ∅, ∅, ∅, ∅, ∅, fun _ => 0, fun _ _ => 0, 0⟩).returns
  have hstart := Starts.main run
  have hsampled (v : ℕ) (hv : v < 2) : v ∈ s.sampleMode := by
    refine hs.2 v hv ?_
    rw [CSR.degree_parallelEdges]
    decide
  exact ⟨s, hstart, fun v hv => ⟨hsampled v hv,
    (sampling_invariant _ 2 hsymm hdegree (by decide) (by decide) _).2.1 0 _ s hstart v (hsampled v hv)⟩⟩

end KCore

end ToggleTree
