import ToggleTree.ForkJoin.Reduce
import ToggleTree.Graph.VertexSet
import ToggleTree.ShortestPath.Dijkstra

/-!
# The Bellman–Ford algorithm

In each round the vertices of the frontier take the least distance that their in-neighbours offer,
and then offer their out-neighbours a distance through them; those that take it form the next
frontier. A vertex may be lowered after it has made its offers, but then it is in the next frontier,
and a vertex outside of the frontier has made the offers that belong to its distance.
-/

namespace ToggleTree

open ForkJoin ForkJoin.Prog

/-- The state of `bellman_ford`. -/
structure BellmanState where
  dist : ℕ → ShortestPath.Distance
  frontier : Finset ℕ
  nextFrontier : Finset ℕ

/-- The iterations of the main loop. -/
inductive BellmanCall
  | loop (round : ℕ)

namespace ShortestPath

namespace Bellman

/-- A program of Bellman and Ford. -/
abbrev BellmanProg (α : Type) := Prog BellmanState BellmanCall α

/-- The set `frontier`. -/
def frontier : Loc BellmanState (Finset ℕ) := ⟨BellmanState.frontier, fun S s => { s with frontier := S }⟩

/-- The set `next_frontier`. -/
def nextFrontier : Loc BellmanState (Finset ℕ) :=
  ⟨BellmanState.nextFrontier, fun S s => { s with nextFrontier := S }⟩

/-- The entry of `dist` for `v`. -/
def cell (v : ℕ) : Loc BellmanState Distance :=
  ⟨fun s => s.dist v, fun x s => { s with dist := Function.update s.dist v x }⟩

/-- `write_min(dist[v], y)`. -/
def lowerCell (v : ℕ) (y : Distance) : BellmanProg Bool :=
  act fun s => (decide (y < s.dist v), if y < s.dist v then (cell v).put y s else s)

section Program

variable (G : CSR)

/-- The least distance that the in-neighbours of `s` offer. -/
def pullIn (s : ℕ) : BellmanProg Distance :=
  reduce min ⊤ 1024 (G.inOffset s) (G.inOffset (s + 1)) fun i => do
    let distD ← atomicRead (cell (G.weightedInEdge i).1)
    return extended distD (G.weightedInEdge i).2

/-- Offer the out-neighbour at slot `i` the distance through a vertex at distance `distS`. -/
def pushOut (distS : Distance) (i : ℕ) : BellmanProg Unit := do
  let lowered ← lowerCell (G.weightedOutEdge i).1 (extended distS (G.weightedOutEdge i).2)
  if lowered then do
    let _ ← VertexSet.insert nextFrontier (G.weightedOutEdge i).1
    return ()
  else return ()

/-- The call for a vertex of the frontier. -/
def visitVertex (s : ℕ) : BellmanProg Unit := do
  let candidate ← pullIn G s
  let _ ← lowerCell s candidate
  let distS ← atomicRead (cell s)
  parallelFor (G.outOffset s) (G.outOffset (s + 1)) (pushOut G distS)

/-- An iteration of the main loop, with the test before it. -/
def bellmanRound (round : ℕ) : BellmanProg Unit := do
  if round < G.n then do
    let done ← VertexSet.empty frontier
    if done then return ()
    else do
      VertexSet.consumeEach frontier (visitVertex G)
      VertexSet.swap frontier nextFrontier
      invoke (.loop (round + 1))
  else return ()

/-- The calls are the loop. -/
def bellmanProcedures : BellmanCall → BellmanProg Unit
  | .loop round => bellmanRound G round

/-- `BellmanFord` -/
def bellmanFord (source : ℕ) : BellmanProg (ℕ → Distance) := do
  modify fun _ => ⟨fun _ => ⊤, ∅, ∅⟩
  atomicWrite (cell source) 0
  let _ ← VertexSet.insert frontier source
  invoke (.loop 0)
  read BellmanState.dist

end Program

section Round

/-- What a branch holds: vertices it has lowered without inserting them, vertices whose own distance it
has read with what it was, and vertices whose own distance it is still to lower. -/
abbrev Claims := Multiset ℕ × Multiset (ℕ × Distance) × Multiset ℕ

/-- The state while the calls of a round run that started in `s₀`. -/
structure RoundInv (G : CSR) (source : ℕ) (s₀ s : BellmanState) (t : Claims) : Prop where
  frontier : s.frontier = ∅
  sound : ∀ v, goal G source v ≤ s.dist v
  le : ∀ v, s.dist v ≤ s₀.dist v
  lowered : ∀ v, s.dist v = s₀.dist v ∨ v ∈ s₀.frontier ∨ v ∈ s.nextFrontier ∨ v ∈ t.1
  lt : ∀ v, v ∈ s.nextFrontier ∨ v ∈ t.1 → v < G.n
  current : ∀ p ∈ t.2.1, s.dist p.1 = p.2 ∨ p.1 ∈ s.nextFrontier ∨ p.1 ∈ t.1
  nodup : (t.2.1.map Prod.fst + t.2.2).Nodup
  own : ∀ v ∈ t.2.2, v ∈ s₀.frontier

/-- Distances only fall. -/
def roundProtocol (G : CSR) (source : ℕ) (s₀ : BellmanState) : Protocol BellmanState Claims where
  inv := RoundInv G source s₀
  rel s s' := ∀ v, s'.dist v ≤ s.dist v
  refl _ _ := le_rfl
  trans h h' v := (h' v).trans (h v)

variable {G : CSR} {source : ℕ} {s₀ s : BellmanState} {v : ℕ} {x y : Distance}
  {env : BellmanCall → BellmanProg Unit}

/-- The distance that is written. -/
theorem dist_lowered_self : ((cell v).put y s).dist v = y := by
  change Function.update s.dist v y v = y
  rw [Function.update_self]

/-- The distances that are not written. -/
theorem dist_lowered_of_ne {u : ℕ} (h : u ≠ v) : ((cell v).put y s).dist u = s.dist u := by
  change Function.update s.dist v y u = s.dist u
  rw [Function.update_of_ne h]

/-- A lower value lowers the distances. -/
theorem dist_lowered_le (hlt : y < s.dist v) (u : ℕ) : ((cell v).put y s).dist u ≤ s.dist u := by
  by_cases hu : u = v
  · rw [hu, dist_lowered_self]
    exact hlt.le
  · exact (dist_lowered_of_ne hu).le

/-- A sound value keeps the distances sound. -/
theorem dist_lowered_sound (hsound : ∀ u, goal G source u ≤ s.dist u) (hy : goal G source v ≤ y) (u : ℕ) :
    goal G source u ≤ ((cell v).put y s).dist u := by
  by_cases hu : u = v
  · rw [hu, dist_lowered_self]
    exact hy
  · rw [dist_lowered_of_ne hu]
    exact hsound u

namespace RoundInv

/-- A vertex of the frontier lowers its own distance before it reads it. -/
theorem lowerOwn {o : Claims} (h : RoundInv G source s₀ s ((0, 0, {v}) + o)) (hy : goal G source v ≤ y)
    (hlt : y < s.dist v) : RoundInv G source s₀ ((cell v).put y s) ((0, 0, {v}) + o) := by
  have hv : v ∈ ((0, 0, {v}) + o : Claims).2.2 := Multiset.mem_add.mpr (Or.inl (Multiset.mem_singleton_self v))
  refine ⟨h.frontier, dist_lowered_sound h.sound hy, fun u => (dist_lowered_le hlt u).trans (h.le u), fun u => ?_,
    h.lt, fun p hp => ?_, h.nodup, h.own⟩
  · by_cases hu : u = v
    · exact Or.inr (Or.inl (hu ▸ h.own v hv))
    · rw [dist_lowered_of_ne hu]
      exact h.lowered u
  · -- nobody has read this distance yet
    have hne : p.1 ≠ v := by
      rintro rfl
      exact Multiset.disjoint_left.mp (Multiset.nodup_add.mp h.nodup).2.2 (Multiset.mem_map_of_mem _ hp) hv
    rw [dist_lowered_of_ne hne]
    exact h.current p hp

/-- A vertex of the frontier reads its own distance for its offers. -/
theorem readOwn {o : Claims} (h : RoundInv G source s₀ s ((0, 0, {v}) + o)) :
    RoundInv G source s₀ s ((0, {(v, s.dist v)}, 0) + o) := by
  obtain ⟨owed, current, own⟩ := o
  obtain ⟨hfrontier, hsound, hle, hlowered, hlt, hcurrent, hnodup, hown⟩ := h
  simp only [Prod.mk_add_mk, zero_add] at hlowered hlt hcurrent hnodup hown ⊢
  refine ⟨hfrontier, hsound, hle, hlowered, hlt, fun p hp => ?_, ?_,
    fun u hu => hown u (Multiset.mem_add.mpr (Or.inr hu))⟩
  · rcases Multiset.mem_add.mp hp with hp | hp
    · rw [Multiset.mem_singleton.mp hp]
      exact Or.inl rfl
    · exact hcurrent p hp
  · rw [Multiset.map_add, Multiset.map_singleton, add_assoc, add_left_comm]
    exact hnodup

/-- A vertex is lowered and is to be inserted. -/
theorem offer {d : ℕ} {o : Claims} (h : RoundInv G source s₀ s (0 + o)) (hd : d < G.n) (hy : goal G source d ≤ y)
    (hlt : y < s.dist d) : RoundInv G source s₀ ((cell d).put y s) (({d}, 0, 0) + o) := by
  rw [zero_add] at h
  obtain ⟨owed, current, own⟩ := o
  obtain ⟨hfrontier, hsound, hle, hlowered, hlt', hcurrent, hnodup, hown⟩ := h
  simp only [Prod.mk_add_mk, zero_add] at *
  have hmem {u : ℕ} (hu : u ∈ s.nextFrontier ∨ u ∈ owed) : u ∈ s.nextFrontier ∨ u ∈ {d} + owed :=
    hu.imp_right fun h => Multiset.mem_add.mpr (Or.inr h)
  have hself : d ∈ {d} + owed := Multiset.mem_add.mpr (Or.inl (Multiset.mem_singleton_self d))
  refine ⟨hfrontier, dist_lowered_sound hsound hy, fun u => (dist_lowered_le hlt u).trans (hle u), fun u => ?_,
    fun u hu => ?_, fun p hp => ?_, hnodup, hown⟩
  · by_cases hu : u = d
    · exact Or.inr (Or.inr (Or.inr (hu ▸ hself)))
    · rw [dist_lowered_of_ne hu]
      exact (hlowered u).imp_right (Or.imp_right hmem)
  · rcases hu with hu | hu
    · exact hlt' u (Or.inl hu)
    · rcases Multiset.mem_add.mp hu with hu | hu
      · rwa [Multiset.mem_singleton.mp hu]
      · exact hlt' u (Or.inr hu)
  · by_cases hp' : p.1 = d
    · exact Or.inr (Or.inr (hp' ▸ hself))
    · rw [dist_lowered_of_ne hp']
      exact (hcurrent p hp).imp_right hmem

/-- The insertion that was owed. -/
theorem insert {d : ℕ} {o : Claims} (h : RoundInv G source s₀ s (({d}, 0, 0) + o)) :
    RoundInv G source s₀ { s with nextFrontier := Insert.insert d s.nextFrontier } (0 + o) := by
  rw [zero_add]
  obtain ⟨owed, current, own⟩ := o
  obtain ⟨hfrontier, hsound, hle, hlowered, hlt, hcurrent, hnodup, hown⟩ := h
  simp only [Prod.mk_add_mk, zero_add] at *
  have hmem {u : ℕ} : u ∈ s.nextFrontier ∨ u ∈ {d} + owed ↔ u ∈ Insert.insert d s.nextFrontier ∨ u ∈ owed := by
    rw [Finset.mem_insert, Multiset.mem_add, Multiset.mem_singleton]
    tauto
  exact ⟨hfrontier, hsound, hle, fun u => (hlowered u).imp_right (Or.imp_right hmem.mp),
    fun u hu => hlt u (hmem.mpr hu), fun p hp => (hcurrent p hp).imp_right hmem.mp, hnodup, hown⟩

end RoundInv

/-- Every in-neighbour offers a distance that is not too small. -/
theorem goal_le_pulled (hT : G.WeightedTransposed) (hv : v < G.n) {i : ℕ} (hi : G.InSlot v i)
    (hsource : source < G.n) (hx : goal G source (G.weightedInEdge i).1 ≤ x) :
    goal G source v ≤ extended x (G.weightedInEdge i).2 := by
  obtain ⟨_, j, hj, heq⟩ := (hT (G.weightedInEdge i).1 v (G.weightedInEdge i).2).mpr ⟨hv, i, hi, rfl⟩
  have h := goal_le_extended hsource hx hj
  rw [← CSR.weightedOutEdge_fst, heq] at h
  exact h

/-- The incoming edges give a sound value. -/
theorem pullIn_round (hT : G.WeightedTransposed) (hsource : source < G.n) (hv : v < G.n) (s : BellmanState) :
    Ensures (roundProtocol G source s₀) env (fun y _ a => goal G source v ≤ y ∧ a = 0) (pullIn G v) s 0 := by
  have hloop : Ensures (roundProtocol G source s₀) env (fun y _ a => goal G source v ≤ y ∧ a = 0) (pullIn G v) s
      (∑ _i ∈ Finset.Ico (G.inOffset v) (G.inOffset (v + 1)), (0 : Claims)) := by
    refine Ensures.reduce (I := fun _ _ y _ => goal G source v ≤ y) (fun _ => 0) (CSR.inOffset_le hv)
      (fun _ _ _ _ _ _ _ h => h) (fun _ _ => le_top) (fun _ _ _ _ _ _ _ _ => le_min) fun i s' hi hi' _ => ?_
    refine Ensures.read fun s₁ o _ hinv => Ensures.ret fun _ _ _ hinv' => ⟨0, hinv', ?_, rfl⟩
    exact goal_le_pulled hT hv ⟨hi, hi'⟩ hsource (RoundInv.sound hinv _)
  rwa [Finset.sum_const_zero] at hloop

/-- Lowering the own distance of a vertex keeps its claim. -/
theorem lowerOwn_round (hy : goal G source v ≤ y) (s : BellmanState) :
    Ensures (roundProtocol G source s₀) env (fun _ _ a => a = (0, 0, {v})) (lowerCell v y) s (0, 0, {v}) := by
  have hstep : Ensures (roundProtocol G source s₀) env (fun _ _ a => a = (0, 0, {v})) (lowerCell v y >>= ret) s
      (0, 0, {v}) := by
    refine Ensures.act fun s' o _ hinv => ?_
    by_cases hlt : y < s'.dist v
    · rw [if_pos hlt]
      exact ⟨_, dist_lowered_le hlt, RoundInv.lowerOwn hinv hy hlt,
        Ensures.ret fun _ _ _ hinv' => ⟨_, hinv', rfl⟩⟩
    · rw [if_neg hlt]
      exact ⟨_, fun _ => le_rfl, hinv, Ensures.ret fun _ _ _ hinv' => ⟨_, hinv', rfl⟩⟩
  rwa [bind_ret] at hstep

/-- An offer to an out-neighbour. -/
theorem pushOut_round {i : ℕ} (hlt : G.outEdge i < G.n)
    (hy : goal G source (G.outEdge i) ≤ extended x (G.weightedOutEdge i).2) (s : BellmanState) :
    Ensures (roundProtocol G source s₀) env
      (fun _ s' a => s'.dist (G.outEdge i) ≤ extended x (G.weightedOutEdge i).2 ∧ a = 0) (pushOut G x i) s 0 := by
  unfold pushOut
  rw [CSR.weightedOutEdge_fst]
  generalize extended x (G.weightedOutEdge i).2 = y at hy
  generalize G.outEdge i = d at hy hlt
  refine Ensures.act fun s' o _ hinv => ?_
  by_cases hless : y < s'.dist d
  · rw [if_pos hless, decide_eq_true hless]
    refine ⟨({d}, 0, 0), dist_lowered_le hless, RoundInv.offer hinv hlt hy hless, ?_⟩
    rw [if_pos rfl]
    refine Ensures.act fun s₁ o₁ hrel₁ hinv₁ => ⟨0, fun _ => le_rfl, RoundInv.insert hinv₁, ?_⟩
    exact Ensures.ret fun _ _ hrel₂ hinv₂ =>
      ⟨0, hinv₂, (hrel₂ d).trans ((hrel₁ d).trans dist_lowered_self.le), rfl⟩
  · rw [if_neg hless, decide_eq_false hless, if_neg Bool.false_ne_true]
    exact ⟨0, fun _ => le_rfl, hinv,
      Ensures.ret fun _ _ hrel hinv' => ⟨0, hinv', (hrel d).trans (not_lt.mp hless), rfl⟩⟩

/-- The call for `v` has offered its out-neighbours a distance through `v` that is not more than its
distance before the round, and has noted it. -/
def Visited (G : CSR) (s₀ : BellmanState) (v : ℕ) (s : BellmanState) (a : Claims) : Prop :=
  ∃ x, x ≤ s₀.dist v ∧ (∀ i, G.OutSlot v i → s.dist (G.outEdge i) ≤ extended x (G.weightedOutEdge i).2) ∧
    a = (0, {(v, x)}, 0)

/-- A vertex of the frontier is visited. -/
theorem visitVertex_round (hT : G.WeightedTransposed) (hsource : source < G.n) (hv : v < G.n) (s : BellmanState) :
    Ensures (roundProtocol G source s₀) env (fun _ => Visited G s₀ v) (visitVertex G v) s (0, 0, {v}) := by
  have hpull : Ensures (roundProtocol G source s₀) env (fun y _ a => goal G source v ≤ y ∧ a = 0)
    (pullIn G v) s 0 :=
    pullIn_round hT hsource hv s
  have hpulled := hpull.frame (0, 0, {v})
  rw [zero_add] at hpulled
  refine hpulled.bind ?_
  rintro y s₁ _ ⟨_, ⟨hy, rfl⟩, rfl⟩
  rw [zero_add]
  refine (lowerOwn_round hy s₁).bind ?_
  rintro _ s₂ _ rfl
  refine Ensures.act fun s₃ o _ hinv => ⟨(0, {(v, s₃.dist v)}, 0), fun _ => le_rfl, RoundInv.readOwn hinv, ?_⟩
  have hx : s₃.dist v ≤ s₀.dist v := RoundInv.le hinv v
  have hsound : goal G source v ≤ s₃.dist v := RoundInv.sound hinv v
  change Ensures _ _ _ (parallelFor _ _ (pushOut G (s₃.dist v))) s₃ _
  generalize s₃.dist v = x at hx hsound
  have hpush : Ensures (roundProtocol G source s₀) env
      (fun _ s a => (∀ i, G.outOffset v ≤ i → i < G.outOffset (v + 1) →
        s.dist (G.outEdge i) ≤ extended x (G.weightedOutEdge i).2) ∧ a = 0)
      (parallelFor (G.outOffset v) (G.outOffset (v + 1)) (pushOut G x)) s₃ 0 :=
    Ensures.parallelForZero (fun i s s' _ hrel h => (hrel _).trans h) fun i hi hi' =>
      pushOut_round (CSR.outEdge_lt hv ⟨hi, hi'⟩) (goal_le_extended hsource hsound ⟨hi, hi'⟩) s₃
  have hnoted := hpush.frame (0, {(v, x)}, 0)
  rw [zero_add] at hnoted
  refine hnoted.mono ?_
  rintro _ s' _ ⟨_, ⟨hedges, rfl⟩, rfl⟩
  exact ⟨x, hx, fun i hi => hedges i hi.1 hi.2, zero_add _⟩

/-- What has been visited stays so. -/
theorem Visited.rel {s s' : BellmanState} {a : Claims} (h : Visited G s₀ v s a)
    (hrel : (roundProtocol G source s₀).rel s s') : Visited G s₀ v s' a := by
  obtain ⟨x, hx, hedges, ha⟩ := h
  exact ⟨x, hx, fun i hi => (hrel _).trans (hedges i hi), ha⟩

/-- Before its call every vertex of the frontier may lower its own distance. -/
theorem sum_own (l : List ℕ) : (l.map fun v => ((0, 0, {v}) : Claims)).sum = (0, 0, (l : Multiset ℕ)) := by
  induction l with
  | nil => rfl
  | cons v l ih =>
    rw [List.map_cons, List.sum_cons, ih, Prod.mk_add_mk, Prod.mk_add_mk, zero_add, zero_add,
      Multiset.singleton_add,
      Multiset.cons_coe]

/-- After the calls nothing is owed, and what each has noted is kept. -/
theorem sum_visited {l : List ℕ} {d : ℕ → Claims} (h : ∀ v ∈ l, Visited G s₀ v s (d v)) :
    (l.map d).sum.1 = 0 ∧ ∀ v ∈ l, ∀ p ∈ (d v).2.1, p ∈ (l.map d).sum.2.1 := by
  induction l with
  | nil => exact ⟨rfl, fun v hv => absurd hv List.not_mem_nil⟩
  | cons v l ih =>
    obtain ⟨hzero, hmem⟩ := ih fun u hu => h u (List.mem_cons_of_mem v hu)
    obtain ⟨x, _, _, hd⟩ := h v List.mem_cons_self
    rw [List.map_cons, List.sum_cons]
    refine ⟨?_, fun u hu p hp => ?_⟩
    · rw [Prod.fst_add, hzero, hd, add_zero]
    · rw [Prod.snd_add, Prod.fst_add, Multiset.mem_add]
      rcases List.mem_cons.mp hu with rfl | hu
      · exact Or.inl hp
      · exact Or.inr (hmem u hu p hp)

end Round

section Loop

variable {G : CSR} {source k : ℕ} {s : BellmanState}

/-- What holds whenever an iteration starts: vertices outside of the frontier have made the offers
that belong to their distances, and all paths of at most `k` edges are accounted for. -/
structure Head (G : CSR) (source k : ℕ) (s : BellmanState) : Prop where
  nextFrontier : s.nextFrontier = ∅
  frontier : ∀ v ∈ s.frontier, v < G.n
  sound : ∀ v, goal G source v ≤ s.dist v
  start : s.dist source = 0
  settled : ∀ v, v ∉ s.frontier → ∀ i, G.OutSlot v i →
    s.dist (G.outEdge i) ≤ extended (s.dist v) (G.weightedOutEdge i).2
  reached : ∀ v c j, j ≤ k → Arcs.Walk G.WeightedEdge source v c j → (s.dist v).val ≤ c

namespace Head

/-- After the calls of a round one more edge is accounted for. -/
theorem advance {s' : BellmanState} {t : Claims} (h : Head G source k s) (hinv : RoundInv G source s s' t)
    (howed : t.1 = 0) (hvisited : ∀ v ∈ s.frontier, ∃ a, Visited G s v s' a ∧ ∀ p ∈ a.2.1, p ∈ t.2.1) :
    Head G source (k + 1) { s' with frontier := s'.nextFrontier, nextFrontier := s'.frontier } := by
  have hnone {v : ℕ} (hv : v ∉ s'.nextFrontier) : ¬(v ∈ s'.nextFrontier ∨ v ∈ t.1) := by
    rintro (hmem | hmem)
    · exact hv hmem
    · rw [howed] at hmem
      exact Multiset.notMem_zero v hmem
  have hoffered (u i : ℕ) (hi : G.OutSlot u i) :
      s'.dist (G.outEdge i) ≤ extended (s.dist u) (G.weightedOutEdge i).2 := by
    by_cases hu : u ∈ s.frontier
    · obtain ⟨_, ⟨x, hx, hedges, _⟩, _⟩ := hvisited u hu
      exact (hedges i hi).trans (extended_mono (G.weightedOutEdge_snd_lt i) hx)
    · exact (hinv.le _).trans (h.settled u hu i hi)
  refine ⟨hinv.frontier, fun v hv => hinv.lt v (Or.inl hv), hinv.sound, ?_, fun v hv i hi => ?_,
    fun v c j hj walk => ?_⟩
  · have hle := hinv.le source
    rw [h.start] at hle
    exact le_antisymm hle (Fin.zero_le _)
  · change s'.dist (G.outEdge i) ≤ extended (s'.dist v) (G.weightedOutEdge i).2
    by_cases hfrontier : v ∈ s.frontier
    · obtain ⟨_, ⟨x, _, hedges, rfl⟩, hnoted⟩ := hvisited v hfrontier
      have hx : s'.dist v = x :=
        (hinv.current (v, x) (hnoted (v, x) (Multiset.mem_singleton_self _))).resolve_right (hnone hv)
      rw [hx]
      exact hedges i hi
    · have hsame : s'.dist v = s.dist v :=
        (hinv.lowered v).resolve_right fun hmem => hmem.elim hfrontier (hnone hv)
      rw [hsame]
      exact hoffered v i hi
  · change (s'.dist v).val ≤ c
    cases walk with
    | nil => exact (Fin.le_def.mp (hinv.le source)).trans (h.reached source 0 0 (Nat.zero_le k) Arcs.Walk.nil)
    | @snoc u _ c w j walk arc =>
      obtain ⟨_, i, hi, heq⟩ := arc
      have hle := val_le_of_le_extended (G.weightedOutEdge_snd_lt i) (hoffered u i hi)
        (h.reached u c j (Nat.le_of_succ_le_succ hj) walk)
      rwa [← CSR.weightedOutEdge_fst, heq] at hle

/-- A round leads from one head of the loop to the next. -/
theorem round (h : Head G source k s) (hT : G.WeightedTransposed) (hsource : source < G.n)
    {env : BellmanCall → BellmanProg Unit} :
    Total env
      (fun _ s' => Head G source (k + 1) { s' with frontier := s'.nextFrontier, nextFrontier := s'.frontier })
      (VertexSet.consumeEach Bellman.frontier (visitVertex G)) s := by
  refine Total.act ?_
  have hmem {v : ℕ} : v ∈ s.frontier.sort (· ≤ ·) ↔ v ∈ s.frontier := Finset.mem_sort _
  have hstart : RoundInv G source s { s with frontier := ∅ }
      ((s.frontier.sort (· ≤ ·)).map fun v => ((0, 0, {v}) : Claims)).sum := by
    rw [sum_own]
    refine ⟨rfl, h.sound, fun _ => le_rfl, fun _ => Or.inl rfl, fun v hv => ?_, fun p hp => ?_, ?_,
      fun v hv => hmem.mp hv⟩
    · rcases hv with hv | hv
      · rw [h.nextFrontier] at hv
        exact absurd hv (Finset.notMem_empty v)
      · exact absurd hv (Multiset.notMem_zero v)
    · exact absurd hp (Multiset.notMem_zero p)
    · rw [Multiset.map_zero, zero_add]
      exact Finset.sort_nodup _ _
  have hcalls : Ensures (roundProtocol G source s) env
      (fun _ s' t => ∃ d : ℕ → Claims, t = ((s.frontier.sort (· ≤ ·)).map d).sum ∧
        ∀ v ∈ s.frontier.sort (· ≤ ·), Visited G s v s' (d v))
      (parallelEach (s.frontier.sort (· ≤ ·)) (visitVertex G)) { s with frontier := ∅ }
      ((s.frontier.sort (· ≤ ·)).map fun v => ((0, 0, {v}) : Claims)).sum :=
    Ensures.parallelEach_own _ (Finset.sort_nodup s.frontier (· ≤ ·)) (fun v s₁ s₂ a hrel hv => hv.rel hrel)
      fun v hv => visitVertex_round hT hsource (h.frontier v (hmem.mp hv)) _
  refine (hcalls.total hstart).mono ?_
  rintro _ s' ⟨_, _, hinv, d, rfl, hvisited⟩
  obtain ⟨howed, hnoted⟩ := sum_visited hvisited
  exact h.advance hinv howed fun v hv => ⟨d v, hvisited v (hmem.mpr hv), hnoted v (hmem.mpr hv)⟩

/-- An empty frontier leaves nothing to improve. -/
theorem eq_goal_of_empty (h : Head G source k s) (hempty : s.frontier = ∅) (v : ℕ) :
    s.dist v = goal G source v := by
  refine eq_goal_of_le h.sound (fun v d hd => ?_) v
  obtain ⟨j, walk⟩ := Arcs.exists_walk hd
  refine val_le_of_settled h.start (fun u i hi => h.settled u ?_ i hi) walk
  rw [hempty]
  exact Finset.notMem_empty u

/-- A shortest path has fewer edges than there are vertices. -/
theorem eq_goal_of_le (h : Head G source k s) (hsource : source < G.n) (hk : G.n ≤ k) (v : ℕ) :
    s.dist v = goal G source v := by
  refine ShortestPath.eq_goal_of_le h.sound (fun v d hd => ?_) v
  obtain ⟨j, hj, walk⟩ := Arcs.exists_short_walk (Finset.mem_range.mpr hsource)
    (fun u v w arc => Finset.mem_range.mpr arc.lt) hd
  rw [Finset.card_range] at hj
  exact h.reached v d j (by omega) walk

/-- The main loop stops with the right distances. -/
theorem total_loop (h : Head G source k s) (hT : G.WeightedTransposed) (hsource : source < G.n) :
    Total (bellmanProcedures G) (fun _ s' => ∀ v, s'.dist v = goal G source v) (invoke (.loop k)) s := by
  induction hn : G.n - k generalizing k s with
  | zero =>
    have hk : ¬k < G.n := by omega
    refine Total.invoke ?_
    change Total (bellmanProcedures G) _ (bellmanRound G k) s
    rw [bellmanRound, if_neg hk]
    exact Total.ret (h.eq_goal_of_le hsource (not_lt.mp hk))
  | succ n ih =>
    have hk : k < G.n := by omega
    refine Total.invoke ?_
    change Total (bellmanProcedures G) _ (bellmanRound G k) s
    rw [bellmanRound, if_pos hk]
    refine Total.read ?_
    by_cases hempty : Bellman.frontier.get s = ∅
    · rw [if_pos (decide_eq_true hempty)]
      exact Total.ret (h.eq_goal_of_empty hempty)
    · rw [if_neg fun hdone => hempty (of_decide_eq_true hdone)]
      refine (h.round hT hsource).bind ?_
      exact fun _ s' h' => Total.modify (ih h' (by omega))

end Head

/-- The main loop starts with the source, at distance 0. -/
theorem head_start (hsource : source < G.n) :
    Head G source 0 ⟨Function.update (fun _ => ⊤) source 0, Insert.insert source ∅, ∅⟩ := by
  refine ⟨rfl, fun v hv => ?_, goal_le_start, ?_, fun v hv i _ => start_settled (fun heq => hv ?_) i _,
    fun v c j hj walk => ?_⟩
  · rcases Finset.mem_insert.mp hv with rfl | hv
    · exact hsource
    · exact absurd hv (Finset.notMem_empty v)
  · dsimp only
    rw [Function.update_self]
  · exact Finset.mem_insert.mpr (Or.inl heq)
  · cases walk with
    | nil =>
      dsimp only
      rw [Function.update_self]
      exact le_rfl
    | snoc _ _ => exact absurd hj (Nat.not_succ_le_zero _)

/-- In every run the algorithm stops with the right distances. -/
theorem total_bellmanFord (hT : G.WeightedTransposed) (hsource : source < G.n) (s : BellmanState) :
    Total (bellmanProcedures G) (fun result _ => ∀ v, result v = goal G source v) (bellmanFord source) s :=
  Total.modify (Total.modify (Total.act (((head_start hsource).total_loop hT hsource).bind fun _ _ hfinal =>
    Total.atom (Total.ret hfinal))))

end Loop

end Bellman

/-- In every run the algorithm stops after at most as many rounds as there are vertices and returns the
least weights of the paths from the source, or the largest distance where that is not below it; every
run of `dijkstra` returns the same. -/
theorem bellmanFord_exact (G : CSR) (source : ℕ) (hT : G.WeightedTransposed) (hsource : source < G.n)
    (s : BellmanState) :
    Total (Bellman.bellmanProcedures G)
      (fun result _ => (∀ v < G.n,
        (∀ d : ℕ, G.weightedDistance source v = d → d < 2 ^ 32 - 1 → (result v).val = d) ∧
          ((∀ d : ℕ, G.weightedDistance source v = d → 2 ^ 32 - 1 ≤ d) → (result v).val = 2 ^ 32 - 1)) ∧
        ∀ st, Total (dijkstraProcedures G) (fun result' _ => ∀ v < G.n, result v = result' v)
          (dijkstra G source) st)
      (Bellman.bellmanFord source) s := by
  refine (Bellman.total_bellmanFord hT hsource s).mono fun result _ hfinal => ⟨fun v _ => ?_, fun st => ?_⟩
  · rw [hfinal v]
    exact ⟨fun d => val_goal_of_lt, val_goal_of_le⟩
  · refine (total_dijkstra hsource st).mono fun result' _ hfinal' v _ => ?_
    rw [hfinal v, hfinal'.1 v]

/-- The distances from the first vertex of a graph with one edge. -/
theorem bellmanFord_exact_oneEdge :
    Total (Bellman.bellmanProcedures CSR.oneEdge)
      (fun result _ => (∀ v < CSR.oneEdge.n,
        (∀ d : ℕ, CSR.oneEdge.weightedDistance 0 v = d → d < 2 ^ 32 - 1 → (result v).val = d) ∧
          ((∀ d : ℕ, CSR.oneEdge.weightedDistance 0 v = d → 2 ^ 32 - 1 ≤ d) → (result v).val = 2 ^ 32 - 1)) ∧
        ∀ st, Total (dijkstraProcedures CSR.oneEdge) (fun result' _ => ∀ v < CSR.oneEdge.n, result v = result' v)
          (dijkstra CSR.oneEdge 0) st)
      (Bellman.bellmanFord 0) ⟨fun _ => 0, ∅, ∅⟩ :=
  bellmanFord_exact CSR.oneEdge 0 CSR.oneEdge_weightedTransposed (by decide) _

end ShortestPath

end ToggleTree
