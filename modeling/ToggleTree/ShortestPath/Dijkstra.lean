import ToggleTree.IndexMap.Callbacks
import ToggleTree.ShortestPath.Relaxation

/-!
# Dijkstra's algorithm over an index map

Each round repairs the map, which returns the least distance of a tracked vertex, and extracts the
vertices up to it while their edges are relaxed. Zero weights let a round lower and insert vertices
that it extracts, so a vertex may be extracted more than once; a vertex that is not tracked is
always relaxed, and either some distance falls in a round or fewer vertices are tracked after it.
-/

namespace ToggleTree

open ForkJoin ForkJoin.Prog

namespace ShortestPath

open IndexMap IndexMap.Concurrent IndexMap.Concurrent.Shared

section Program

variable (G : CSR)

/-- An iteration of the main loop. The recursive calls of the repair run in any order, and the notes
of the previous extraction are dropped. -/
def dijkstraRound : DijkstraProg Unit :=
  pick (fun _ _ => Checked.Schedule.ascending) fun schedule => do
    let minValue ← act fun st =>
      ((repair schedule st.sequence st.map).1, { st with map := (repair schedule st.sequence st.map).2 })
    if minValue = ⊤ then return ()
    else do
      modify fun st => { st with calls := [], inserted := [] }
      let _ ← extractMin nodes values minValue (visitor (relaxEdges G))
      invoke .next

/-- The calls are the loop. -/
def dijkstraProcedures : Round → DijkstraProg Unit
  | .next => dijkstraRound G

/-- `Dijkstra` -/
def dijkstra (source : ℕ) : DijkstraProg (ℕ → Distance) := do
  modify fun _ => ⟨fun _ => ⊤, create (fun _ => ⊤) G.n false, [], [], []⟩
  atomicWrite (entry values source) 0
  let _ ← IndexMap.Concurrent.insert nodes source
  invoke .next
  read Shared.sequence

end Program

section Loop

variable {G : CSR} {source : ℕ} {S : Finset ℕ} {st : Shared Distance (List (ℕ × ℕ))}

/-- What holds whenever an iteration starts: the repair will track the vertices of `S`, and the edges
of all others are relaxed. -/
structure Head (G : CSR) (source : ℕ) (S : Finset ℕ) (st : Shared Distance (List (ℕ × ℕ))) : Prop where
  repaired : ∀ schedule, (repair schedule st.sequence st.map).1 = S.inf st.sequence ∧
    Exact G.n st.sequence S (repair schedule st.sequence st.map).2
  sound : ∀ v, goal G source v ≤ st.sequence v
  start : st.sequence source = 0
  settled : ∀ v, v ∉ S → ∀ i, G.OutSlot v i → st.sequence (G.outEdge i) ≤ extended (st.sequence v)
    (G.weightedOutEdge i).2
  sums : ∀ p ∈ st.user, p.1 + p.2 < 2 ^ 32

namespace Head

/-- Once everything that is tracked is too far, all distances are right. -/
theorem eq_goal (h : Head G source S st) (htop : S.inf st.sequence = ⊤) (v : ℕ) :
    st.sequence v = goal G source v := by
  have hedge (u i : ℕ) (hi : G.OutSlot u i) :
      st.sequence (G.outEdge i) ≤ extended (st.sequence u) (G.weightedOutEdge i).2 := by
    by_cases hu : u ∈ S
    · rw [(Finset.inf_eq_top_iff _ _).mp htop u hu, extended_top _ (G.weightedOutEdge_snd_lt i)]
      exact le_top
    · exact h.settled u hu i hi
  refine eq_goal_of_le h.sound (fun v d hd => ?_) v
  obtain ⟨k, walk⟩ := Arcs.exists_walk hd
  exact val_le_of_settled h.start hedge walk

/-- What is left to do: distances fall, or fewer vertices are tracked. -/
def work (n : ℕ) (S : Finset ℕ) (st : Shared Distance (List (ℕ × ℕ))) : ℕ ×ₗ ℕ :=
  toLex (∑ v ∈ Finset.range n, (st.sequence v).val, S.card)

/-- An extraction starts the next iteration with less to do. -/
theorem extract {env : Round → DijkstraProg Unit} (h : Head G source S st) (hsource : source < G.n)
    (schedule : ℕ → ℕ → Checked.Schedule) (hne : S.inf st.sequence ≠ ⊤) :
    Total env (fun _ st' => ∃ S', Head G source S' st' ∧ work G.n S' st' < work G.n S st)
      (extractMin nodes values (S.inf st.sequence) (visitor (relaxEdges G)))
      ⟨st.sequence, (repair schedule st.sequence st.map).2, [], [], st.user⟩ := by
  have hexact := (h.repaired schedule).2
  have hSne : S.Nonempty := by
    rw [Finset.nonempty_iff_ne_empty]
    rintro rfl
    exact hne Finset.inf_empty
  have hreports : Total env (Reports G.n st.sequence S (S.inf st.sequence)) _ _ :=
    total_extractMin hexact (fun i hi => lowering_relaxEdges hi) hSne (S.inf st.sequence) st.user
  have hcalls : Calls OnNodes (fun k : ℕ × Distance => visitor (relaxEdges G) k.1 k.2)
      (extractMin nodes values (S.inf st.sequence) (visitor (relaxEdges G))) :=
    calls_extractMin (fun s => ⟨s.map, rfl⟩) (fun m _ _ => ⟨m, rfl⟩) _
  have hensures : Ensures (relaxing G source st.sequence) env (fun _ _ a => a = 0)
      (extractMin nodes values (S.inf st.sequence) (visitor (relaxEdges G)))
      ⟨st.sequence, (repair schedule st.sequence st.map).2, [], [], st.user⟩ 0 :=
    hcalls.ensures (fun _ _ => OnNodes.rel) (fun _ _ _ => OnNodes.inv)
      (fun k => visitor_relaxing hsource k.1 k.2) _
  have hstart : Relaxing G source st.sequence
      ⟨st.sequence, (repair schedule st.sequence st.map).2, [], [], st.user⟩ 0 :=
    ⟨h.sound, fun _ => le_rfl, fun _ => Or.inl rfl, fun v hv => absurd hv List.not_mem_nil,
      fun v hv => absurd hv (Multiset.notMem_zero v), fun v hv => absurd hv List.not_mem_nil, h.sums⟩
  refine (hreports.and (hensures.total hstart)).mono ?_
  rintro count st' ⟨hr, _, _, hinv, rfl⟩
  have hsame (v : ℕ) (hv : v ∉ st'.inserted) : st'.sequence v = st.sequence v := by
    rcases hinv.lowered v with heq | hmem | hmem
    · exact heq
    · exact absurd hmem hv
    · exact absurd hmem (Multiset.notMem_zero v)
  refine ⟨_, ⟨hr.repaired, hinv.sound, ?_, fun v hv i hi => ?_, hinv.sums⟩, ?_⟩
  · have hle := hinv.le source
    rw [h.start] at hle
    exact le_antisymm hle (Fin.zero_le _)
  · rw [Finset.mem_union, Finset.mem_sdiff, List.mem_toFinset, List.mem_toFinset, not_or, not_and, not_not] at hv
    rw [hsame v hv.2]
    by_cases hS : v ∈ S
    · rcases hinv.finished v (hv.1 hS) with hmem | ⟨x, hx, hedges⟩
      · exact absurd hmem (Multiset.notMem_zero v)
      · have hxv : x = st.sequence v := le_antisymm hx.2 (hsame v hv.2 ▸ hx.1)
        exact hxv ▸ hedges i hi
    · exact (hinv.le _).trans (h.settled v hS i hi)
  · rw [work, work, Prod.Lex.toLex_lt_toLex]
    by_cases hnone : st'.inserted = []
    · -- nothing has been lowered, so what is least has been extracted for good
      have hsequence : st'.sequence = st.sequence :=
        funext fun v => hsame v (by rw [hnone]; exact List.not_mem_nil)
      refine Or.inr ⟨by rw [hsequence], ?_⟩
      obtain ⟨v, hv, hleast⟩ := Finset.exists_mem_eq_inf S hSne st.sequence
      rw [hnone, List.toFinset_nil, Finset.union_empty]
      refine Finset.card_lt_card (Finset.ssubset_iff_subset_ne.mpr ⟨Finset.sdiff_subset, fun heq => ?_⟩)
      rw [← heq, Finset.mem_sdiff, List.mem_toFinset] at hv
      exact hv.2 (hr.forced v hv.1 hleast.ge)
    · obtain ⟨v, hv⟩ := List.exists_mem_of_ne_nil _ hnone
      have hvn : v < G.n :=
        (hr.repaired schedule).2.flag.lt (Finset.mem_union.mpr (Or.inr (List.mem_toFinset.mpr hv)))
      have hle (u : ℕ) : (st'.sequence u).val ≤ (st.sequence u).val := hinv.le u
      have hlt : (st'.sequence v).val < (st.sequence v).val := hinv.inserted v hv
      exact Or.inl (Finset.sum_lt_sum (fun u _ => hle u) ⟨v, Finset.mem_range.mpr hvn, hlt⟩)

/-- The main loop stops with the right distances. -/
theorem total_loop (h : Head G source S st) (hsource : source < G.n) :
    Total (dijkstraProcedures G)
      (fun _ st' => (∀ v, st'.sequence v = goal G source v) ∧ ∀ p ∈ st'.user, p.1 + p.2 < 2 ^ 32)
      (invoke .next) st := by
  induction hwork : work G.n S st using WellFoundedLT.induction generalizing S st with
  | ind w ih =>
    subst hwork
    refine Total.invoke (Total.pick fun schedule => Total.act ?_)
    rw [(h.repaired schedule).1]
    by_cases htop : S.inf st.sequence = ⊤
    · rw [if_pos htop]
      exact Total.ret ⟨h.eq_goal htop, h.sums⟩
    · rw [if_neg htop]
      refine Total.modify ((h.extract hsource schedule htop).bind ?_)
      rintro _ st' ⟨S', h', hless⟩
      exact ih _ hless h' rfl

end Head

/-- The main loop starts with the source, at distance 0. -/
theorem head_start {dirty : IndexSet} (hdirty : IndexSet.Represents G.n dirty {source}) :
    Head G source {source} ⟨Function.update (fun _ => ⊤) source 0,
      { create (fun _ => ⊤) G.n false with dirty := dirty }, [], [], []⟩ := by
  have hexact : Exact G.n (fun _ => (⊤ : Distance)) ∅ (create (fun _ => ⊤) G.n false) := exact_create _ _ false
  refine ⟨fun schedule => ?_, goal_le_start, ?_, fun v hv i _ => ?_, fun p hp => absurd hp List.not_mem_nil⟩
  · have hlowered : Lowered (fun _ => (⊤ : Distance)) (Function.update (fun _ => ⊤) source 0) ∅ {source} :=
      ⟨fun i hi => absurd hi (Finset.notMem_empty i), fun i hi => absurd hi (Finset.notMem_empty i)⟩
    have h :=
      repair_spec schedule hlowered (m := { create (fun _ => ⊤) G.n false with dirty := dirty }) hexact.flag
      hdirty hexact.augval
    rwa [Finset.empty_union] at h
  · dsimp only
    rw [Function.update_self]
  · exact start_settled (fun h => hv (Finset.mem_singleton.mpr h)) i _

/-- The dirty flags are a part of the state. -/
theorem dirtyFlags_lawful :
    (dirtyFlags (nodes : Loc (Shared Distance (List (ℕ × ℕ))) (IndexMap Distance))).Lawful :=
  ⟨fun _ _ => rfl, fun _ => rfl, fun _ _ _ => rfl⟩

/-- In every run the algorithm stops with the right distances. -/
theorem total_dijkstra (hsource : source < G.n) (st : Shared Distance (List (ℕ × ℕ))) :
    Total (dijkstraProcedures G)
      (fun result st' => (∀ v, result v = goal G source v) ∧ ∀ p ∈ st'.user, p.1 + p.2 < 2 ^ 32)
      (dijkstra G source) st := by
  have hempty : IndexSet.Represents G.n ((dirtyFlags nodes).get ((entry values source).put 0
      (⟨fun _ => ⊤, create (fun _ => ⊤) G.n false, [], [], []⟩ : Shared Distance (List (ℕ × ℕ))))) ∅ :=
    (exact_create (fun _ => (⊤ : Distance)) G.n false).dirty
  refine Total.modify (Total.modify ?_)
  refine (IndexSet.insert_total dirtyFlags_lawful hsource hempty).bind ?_
  rintro _ st' ⟨-, dirty, rfl, hdirty⟩
  exact ((head_start hdirty).total_loop hsource).bind fun _ st'' hfinal => Total.atom (Total.ret hfinal)

end Loop

/-- In every run the algorithm stops and returns the least weights of the paths from the source, or the
largest distance where that is not below it; no addition that is evaluated on the way wraps. -/
theorem dijkstra_exact (G : CSR) (source : ℕ) (hsource : source < G.n) (st : Shared Distance (List (ℕ × ℕ))) :
    Total (dijkstraProcedures G)
      (fun result st' => (∀ v < G.n,
        (∀ d : ℕ, G.weightedDistance source v = d → d < 2 ^ 32 - 1 → (result v).val = d) ∧
          ((∀ d : ℕ, G.weightedDistance source v = d → 2 ^ 32 - 1 ≤ d) → (result v).val = 2 ^ 32 - 1)) ∧
        ∀ p ∈ st'.user, p.1 + p.2 < 2 ^ 32)
      (dijkstra G source) st := by
  refine (total_dijkstra hsource st).mono fun result st' hfinal => ⟨fun v _ => ?_, hfinal.2⟩
  rw [hfinal.1 v]
  exact ⟨fun d => val_goal_of_lt, val_goal_of_le⟩

/-- The distances from the first vertex of a graph with one edge. -/
theorem dijkstra_exact_oneEdge :
    Total (dijkstraProcedures CSR.oneEdge)
      (fun result st' => (∀ v < CSR.oneEdge.n,
        (∀ d : ℕ, CSR.oneEdge.weightedDistance 0 v = d → d < 2 ^ 32 - 1 → (result v).val = d) ∧
          ((∀ d : ℕ, CSR.oneEdge.weightedDistance 0 v = d → 2 ^ 32 - 1 ≤ d) → (result v).val = 2 ^ 32 - 1)) ∧
        ∀ p ∈ st'.user, p.1 + p.2 < 2 ^ 32)
      (dijkstra CSR.oneEdge 0) ⟨fun _ => 0, create (fun _ => ⊤) 2 false, [], [], []⟩ :=
  dijkstra_exact CSR.oneEdge 0 (by decide) _

end ShortestPath

end ToggleTree
