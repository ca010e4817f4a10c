import ToggleTree.Benchmark.GenerateSource
import ToggleTree.Benchmark.StoredSources
import ToggleTree.BreadthFirstSearch.Distance

/-!
# The driver of the breadth-first search

One driver stores sources of a graph, and another one reads them and searches from each. All runs of
the first one store prefixes of the same sequence, so however often it has been run, and for whichever
graphs, all searches of the second one visit the same vertices: a largest component.
-/

namespace ToggleTree

open Checked ForkJoin ForkJoin.Prog LinkForest Primitives Search UnionFind

namespace Benchmark

section Driver

variable (G : CSR)

/-- The rounds: every source is searched from twice, and the second result counts. -/
def searches : List ℕ → SearchProg (List (ℕ → ℕ))
  | [] => ret []
  | source :: sources => do
    let _ ← breadthFirstSearch G source
    let result ← breadthFirstSearch G source
    let results ← searches sources
    ret (result :: results)

/-- The driver makes no more rounds than there are vertices. -/
def rounds (numRounds : ℕ) : ℕ := min (G.n % 2 ^ 32) numRounds

/-- The driver from the table on; `none` stands for a read behind the end of the sources or of a row. -/
def searchDriver (fuel : ℕ) (content : Option (List Char)) (graphName : List Char) (numRounds : ℕ) :
    Option (SearchProg (List (ℕ → ℕ))) :=
  match getSources fuel content graphName (rounds G numRounds) with
  | .returned sources =>
    if rounds G numRounds ≤ sources.length then some (searches G (sources.take (rounds G numRounds))) else none
  | _ => none

end Driver

/-- The vertices that a search has reached. -/
def visited (n : ℕ) (dist : ℕ → ℕ) : Set ℕ := {v | v < n ∧ dist v ≠ 2 ^ 32 - 1}

/-- A run of the driver that picks sources, with its accesses in any order, may store these. -/
def Generates (sort : List ℕ → List ℕ) (G : CSR) (sources : List ℕ) : Prop :=
  ∃ (numRounds numWorkers : ℕ) (unites : List (ForwardSlot G)) (finds : List (Fin G.n)) (uninit : ℕ → ℕ)
    (schedules : ℕ → Schedule) (schedule : Schedule), 1 ≤ numWorkers ∧ numWorkers < 2 ^ 32 ∧
    AllUnited (uniteSlot G) (UnionFind.run (2 ^ 32 - 1) unites (State.init (uniteSlot G))) ∧
    (∀ s, (ccLabel G unites finds).vertices s = .stored) ∧
    generateSource sort uninit numWorkers schedules schedule numRounds
      (Array.ofFn fun s : Fin G.n => (ccLabel G unites finds).parent s) = some sources

/-- A graph as the drivers load it. -/
structure Undirected (G : CSR) : Prop where
  symmetrized : G.symmetrized = true
  symmetric : ∀ u v, G.Edge u v → G.Edge v u
  size : G.n < 2 ^ 32

/-- The in-lists are the out-lists. -/
theorem Undirected.transposed {G : CSR} (hG : Undirected G) : G.Transposed := by
  intro u v
  have hin : (v < G.n ∧ ∃ i, G.InSlot v i ∧ G.inEdge i = u) ↔ G.Edge v u := by
    simp only [CSR.InSlot, CSR.inOffset, CSR.inEdge, hG.symmetrized, if_true]
    exact Iff.rfl
  rw [hin]
  exact ⟨hG.symmetric u v, hG.symmetric v u⟩

section Searching

variable {G : CSR} {source u v : ℕ} {sources : List ℕ}

/-- A walk connects its ends. -/
theorem connected_of_walk {c k : ℕ} (h : Arcs.Walk G.hop source v c k) : Connected G.Edge source v := by
  induction h with
  | nil => exact Connected.refl source
  | snoc _ arc ih => exact ih.trans (Connected.of_rel arc.1)

/-- In both directions there is a walk along a connection. -/
theorem walk_iff_of_connected (hG : Undirected G) (h : Connected G.Edge u v) :
    (∃ c k, Arcs.Walk G.hop source u c k) ↔ ∃ c k, Arcs.Walk G.hop source v c k := by
  induction h with
  | rel u v hedge =>
    exact ⟨fun ⟨c, k, hwalk⟩ => ⟨c + 1, k + 1, hwalk.snoc ⟨hedge, rfl⟩⟩,
      fun ⟨c, k, hwalk⟩ => ⟨c + 1, k + 1, hwalk.snoc ⟨hG.symmetric u v hedge, rfl⟩⟩⟩
  | refl u => exact Iff.rfl
  | symm u v _ ih => exact ih.symm
  | trans u v w _ _ ih₁ ih₂ => exact ih₁.trans ih₂

/-- In a graph whose edges go both ways the connected vertices are those at a finite distance. -/
theorem hopDistance_ne_top_iff (hG : Undirected G) : G.hopDistance source v ≠ ⊤ ↔ Connected G.Edge source v := by
  rw [Ne, CSR.hopDistance, Arcs.distance_eq_top_iff]
  push Not
  constructor
  · rintro ⟨_, _, hwalk⟩
    exact connected_of_walk hwalk
  · intro h
    exact (walk_iff_of_connected hG h).mp ⟨0, 0, Arcs.Walk.nil⟩

/-- A search visits the component of its source. -/
theorem visited_hopGoal (hG : Undirected G) (hsource : source < G.n) :
    visited G.n (hopGoal G source) = component G.Edge source := by
  ext v
  change v < G.n ∧ hopGoal G source v ≠ 2 ^ 32 - 1 ↔ Connected G.Edge source v
  rw [← hopDistance_ne_top_iff hG]
  constructor
  · rintro ⟨_, hgoal⟩ htop
    rw [hopGoal, htop, Arcs.saturate_top] at hgoal
    exact hgoal rfl
  · intro hne
    obtain ⟨d, hd⟩ := ENat.ne_top_iff_exists.mp hne
    obtain ⟨hlt, hv⟩ := CSR.hopDistance_lt hsource hd.symm
    have hsize := hG.size
    refine ⟨hv, ?_⟩
    rw [hopGoal, ← hd, Arcs.saturate_coe]
    unfold topLevel
    omega

/-- Every round visits the component of its source, from whatever state. -/
theorem total_searches (hG : Undirected G) (hsources : ∀ source ∈ sources, source < G.n) (s : SearchState) :
    Total (procedures G) (fun results _ => results.map (visited G.n) = sources.map (component G.Edge))
      (searches G sources) s := by
  induction sources generalizing s with
  | nil => exact Total.ret rfl
  | cons source sources ih =>
    have hsource := hsources source List.mem_cons_self
    have hsearch := total_search (labelling_distances hG.size hsource) hG.transposed
    refine (hsearch s).bind fun _ s₁ _ => (hsearch s₁).bind fun dist s₂ hdist => ?_
    refine (ih (fun t ht => hsources t (List.mem_cons_of_mem source ht)) s₂).bind fun results s₃ hresults =>
      Total.ret ?_
    rw [List.map_cons, List.map_cons, hresults, funext hdist, visited_hopGoal hG hsource]

end Searching

section Sources

variable {r : ℕ → ℕ → Prop} {n s t : ℕ} {sort : List ℕ → List ℕ} {G : CSR} {sources : List ℕ}

open Classical in
/-- All pseudo-random vertices in the largest component. -/
noncomputable def drawnLargest (r : ℕ → ℕ → Prop) (n : ℕ) : List ℕ :=
  ((List.range n).map (draw n)).filter fun s =>
    InLargest r n s

/-- The vertices that are drawn are vertices of the graph. -/
theorem lt_of_mem_drawnLargest (h : s ∈ drawnLargest r n) : s < n := by
  obtain ⟨i, hi, rfl⟩ := List.mem_map.mp (List.mem_filter.mp h).1
  exact Nat.mod_lt _ (Nat.zero_lt_of_lt (List.mem_range.mp hi))

/-- The vertices that are kept belong to a largest component. -/
theorem inLargest_of_mem_drawnLargest (h : s ∈ drawnLargest r n) : InLargest r n s := by
  simpa using (List.mem_filter.mp h).2

/-- The largest component is only one. -/
theorem component_eq_of_inLargest (hs : InLargest r n s) (ht : InLargest r n t) (hsn : s < n) (htn : t < n) :
    component r s = component r t := by
  have hst := hs t htn
  have hts := ht s hsn
  have hinf : sInf (component r s) = sInf (component r t) := by omega
  have hs' : Connected r s (sInf (component r s)) := Nat.sInf_mem ⟨s, Connected.refl s⟩
  have ht' : Connected r t (sInf (component r t)) := Nat.sInf_mem ⟨t, Connected.refl t⟩
  exact component_eq (hs'.trans (hinf ▸ ht'.symm))

/-- Each run stores a prefix of the same sequence. -/
theorem Generates.eq_take (hG : Undirected G) (hsort : Sorts labelLess sort) (h : Generates sort G sources) :
    ∃ numRounds, sources = (drawnLargest G.Edge G.n).take numRounds := by
  obtain ⟨numRounds, numWorkers, unites, finds, uninit, schedules, schedule, hworkers, hworkers',
    hunited, hstored,
    hsources⟩ := h
  rw [generateSource_of_isLeast (Contents.ofFn _ _) (fun _ _ hedge => ⟨hedge.1, hedge.lt⟩)
    (fun _ hs => isLeast_ccLabel hG.symmetric hunited hstored hs) hG.size hsort hworkers hworkers'] at hsources
  exact ⟨numRounds, (Option.some.inj hsources).symm⟩

/-- What two runs store is what the longer one stores. -/
theorem take_append_drop_take {α : Type} (l : List α) (a b : ℕ) :
    l.take a ++ (l.take b).drop (l.take a).length = l.take (max a b) := by
  rcases Nat.le_total a l.length with h | h
  · rw [List.length_take, min_eq_left h, List.drop_take, ← List.take_add, show a + (b - a) = max a b by omega]
  · have hdrop : (l.take b).drop l.length = [] := List.drop_of_length_le (List.length_take_le' b l)
    rw [List.take_of_length_le h, hdrop, List.append_nil, List.take_of_length_le (h.trans (le_max_left a b))]

/-- What is stored of a graph stays a prefix, whatever runs there have been. -/
theorem latestSources_eq_take {graphs : List Char → CSR} {runs : List (List Char × List ℕ)}
    (hgraphs : ∀ name, Undirected (graphs name))
    (hsort : Sorts labelLess sort) (hruns : ∀ run ∈ runs, Generates sort (graphs run.1) run.2)
    (graphName : List Char) :
    ∃ k, latestSources runs graphName = (drawnLargest (graphs graphName).Edge (graphs graphName).n).take k := by
  induction runs using List.reverseRecOn with
  | nil => exact ⟨0, rfl⟩
  | append_singleton runs run ih =>
    obtain ⟨k, hk⟩ := ih fun run' hrun' => hruns run' (List.mem_append_left _ hrun')
    rw [latestSources, List.foldl_append]
    change ∃ k, (if run.1 = graphName then run.2 ++ (latestSources runs graphName).drop run.2.length
      else latestSources runs graphName) = _
    split
    · next hname =>
      subst hname
      obtain ⟨numRounds, hsources⟩ := (hruns run (List.mem_append_right _ List.mem_cons_self)).eq_take
        (hgraphs run.1) hsort
      exact ⟨max numRounds k, by rw [hk, hsources, take_append_drop_take]⟩
    · exact ⟨k, hk⟩

end Sources

section Rounds

variable {graphs : List Char → CSR} {runs : List (List Char × List ℕ)} {sort : List ℕ → List ℕ}
  {graphName : List Char} {G : CSR} {numRounds : ℕ}

/-- There are at most as many rounds as vertices. -/
theorem rounds_le (hsize : G.n < 2 ^ 32) : rounds G numRounds ≤ G.n := by
  rw [rounds, Nat.mod_eq_of_lt hsize]
  exact min_le_left _ _

/-- What the rounds search from, as long as all reads stay inside. -/
theorem searchDriver_eq {k : ℕ} {latest : List Char → List ℕ} {content : Option (List Char)}
    (hkept : Kept k latest content)
    (hname : graphName ≠ []) (hlt : ∀ s ∈ latest graphName, s < 2 ^ 32) (hnum : numRounds + 1 < 2 ^ 32) :
    searchDriver G (rounds G numRounds + 1) content graphName numRounds =
      if latest graphName = [] ∨ (latest graphName).length < rounds G numRounds ∧ k ≤ rounds G numRounds then
        some (searches G (List.range (rounds G numRounds)))
      else if rounds G numRounds ≤ (latest graphName).length then
        some (searches G ((latest graphName).take (rounds G numRounds)))
      else none := by
  have hle : rounds G numRounds ≤ numRounds := min_le_right _ _
  rw [searchDriver, hkept.getSources hname hlt (by omega)]
  generalize rounds G numRounds = count
  split_ifs with hfallback henough
  · rw [fallback]
    dsimp only
    rw [List.length_range, if_pos le_rfl, List.take_of_length_le (List.length_range.le)]
  · dsimp only
    rw [List.length_take, if_pos (le_min le_rfl henough), List.take_take, min_self]
  · dsimp only
    rw [List.length_take, if_neg fun h => henough (h.trans (min_le_right _ _))]

/-- The two drivers together. After any runs that store sources, of this graph and of others, the table has
for each graph a prefix of one sequence, the pseudo-random vertices of its largest component. All reads
stay inside unless the graph has too few sources in a table with more columns. If it has enough of them,
all rounds, under all schedules, visit the same vertices: a component that no other exceeds. Without
sources, or with too few in a narrow table, every round visits the component of its own number. -/
theorem searchDriver_visits (hgraphs : ∀ name, Undirected (graphs name)) (hsort : Sorts labelLess sort)
    (hruns : ∀ run ∈ runs, Plain run.1 ∧ Generates sort (graphs run.1) run.2) (hname : graphName ≠ [])
    (hnum : numRounds + 1 < 2 ^ 32) (hG : G = graphs graphName) :
    (∀ name ≠ [], ∃ k, latestSources runs name = (drawnLargest (graphs name).Edge (graphs name).n).take k ∧
      ∀ i, cellOf (readCsv (afterRuns runs)) name (sourceColumn i) =
        ((latestSources runs name)[i]?.map decimal).getD []) ∧
    (searchDriver G (rounds G numRounds + 1) (afterRuns runs) graphName numRounds = none ↔
      latestSources runs graphName ≠ [] ∧ (latestSources runs graphName).length < rounds G numRounds ∧
        rounds G numRounds < columns runs) ∧
    (latestSources runs graphName ≠ [] → rounds G numRounds ≤ (latestSources runs graphName).length →
      ∃ prog largest, searchDriver G (rounds G numRounds + 1) (afterRuns runs) graphName numRounds = some prog ∧
        (∃ source < G.n, largest = component G.Edge source) ∧
        (∀ t < G.n, (component G.Edge t).ncard ≤ Set.ncard largest) ∧
        ∀ s, Total (procedures G) (fun results _ =>
          results.map (visited G.n) = List.replicate (rounds G numRounds) largest) prog s) ∧
    (latestSources runs graphName = [] ∨
        (latestSources runs graphName).length < rounds G numRounds ∧ columns runs ≤ rounds G numRounds →
      ∃ prog, searchDriver G (rounds G numRounds + 1) (afterRuns runs) graphName numRounds = some prog ∧
        ∀ s, Total (procedures G) (fun results _ => results.map (visited G.n) =
          (List.range (rounds G numRounds)).map (component G.Edge)) prog s) := by
  subst hG
  have hgraph := hgraphs graphName
  obtain ⟨k, hk⟩ := latestSources_eq_take hgraphs hsort (fun run hrun => (hruns run hrun).2) graphName
  have hmem : ∀ s ∈ latestSources runs graphName,
    s ∈ drawnLargest (graphs graphName).Edge (graphs graphName).n := by
    intro s hs
    rw [hk] at hs
    exact List.mem_of_mem_take hs
  have hkept := kept_afterRuns fun run hrun => (hruns run hrun).1
  have heq := searchDriver_eq (G := graphs graphName) hkept hname
    (fun s hs => (lt_of_mem_drawnLargest (hmem s hs)).trans hgraph.size) hnum
  refine ⟨fun name hname => ?_, ?_, fun hne henough => ?_, fun hfallback => ?_⟩
  · obtain ⟨k, hk⟩ := latestSources_eq_take hgraphs hsort (fun run hrun => (hruns run hrun).2) name
    exact ⟨k, hk, hkept.cells name hname⟩
  · rw [heq]
    split_ifs with hfallback henough
    · refine iff_of_false not_false fun ⟨hne, hfew, hwide⟩ => ?_
      rcases hfallback with hnil | ⟨_, hnarrow⟩
      · exact hne hnil
      · omega
    · exact iff_of_false not_false fun ⟨_, hfew, _⟩ => by omega
    · rw [not_or] at hfallback
      refine iff_of_true rfl ⟨hfallback.1, not_le.mp henough, ?_⟩
      by_contra hnarrow
      exact hfallback.2 ⟨not_le.mp henough, not_lt.mp hnarrow⟩
  · rw [if_neg (not_or.mpr ⟨hne, fun h => absurd h.1 (not_lt.mpr henough)⟩), if_pos henough] at heq
    obtain ⟨first, hfirst⟩ := List.exists_mem_of_ne_nil _ hne
    have hlargest : ∀ s ∈ latestSources runs graphName,
      InLargest (graphs graphName).Edge (graphs graphName).n s :=
      fun s hs => inLargest_of_mem_drawnLargest (hmem s hs)
    have hfirst_lt := lt_of_mem_drawnLargest (hmem first hfirst)
    refine ⟨_, component (graphs graphName).Edge first, heq, ⟨first, hfirst_lt, rfl⟩, fun t ht => ?_, fun s => ?_⟩
    · have := hlargest first hfirst t ht
      omega
    · refine (total_searches hgraph (fun t ht =>
        lt_of_mem_drawnLargest (hmem t (List.mem_of_mem_take ht))) s).mono
        fun results _ hresults => hresults.trans ?_
      rw [List.eq_replicate_iff, List.length_map, List.length_take]
      refine ⟨min_eq_left henough, fun visits hvisits => ?_⟩
      obtain ⟨t, ht, rfl⟩ := List.mem_map.mp hvisits
      have ht := List.mem_of_mem_take ht
      exact component_eq_of_inLargest (hlargest t ht) (hlargest first hfirst) (lt_of_mem_drawnLargest (hmem t ht))
        hfirst_lt
  · rw [if_pos hfallback] at heq
    refine ⟨_, heq, fun s => total_searches hgraph (fun t ht => ?_) s⟩
    exact (List.mem_range.mp ht).trans_le (rounds_le hgraph.size)

/-- The graph is undirected. -/
theorem undirected_twoWays : Undirected CSR.twoWays := ⟨rfl, fun _ _ => twoWays_edge_symm, by decide⟩

/-- Both vertices are in the largest component. -/
theorem largestSources_twoWays : largestSources CSR.twoWays.Edge CSR.twoWays.n 5 = [draw 2 0, draw 2 1] := by
  have hconnected (s : ℕ) (hs : s < 2) : Connected CSR.twoWays.Edge 0 s := by
    interval_cases s
    · exact Connected.refl 0
    · exact Connected.of_rel ⟨Nat.two_pos, 0, ⟨le_rfl, Nat.one_pos⟩, rfl⟩
  have hall : ∀ s ∈ (List.range 2).map (draw 2), InLargest CSR.twoWays.Edge 2 s := by
    intro s hs t ht
    obtain ⟨i, _, rfl⟩ := List.mem_map.mp hs
    have hdrawn : draw 2 i < 2 := Nat.mod_lt _ (by decide)
    have hsame : component CSR.twoWays.Edge t = component CSR.twoWays.Edge (draw 2 i) :=
      component_eq ((hconnected t ht).symm.trans (hconnected _ hdrawn))
    rw [hsame]
    exact Or.inr ⟨rfl, le_rfl⟩
  have hfilter : drawnLargest CSR.twoWays.Edge 2 = (List.range 2).map (draw 2) :=
    List.filter_eq_self.mpr fun s hs => by simpa using hall s hs
  change (drawnLargest CSR.twoWays.Edge 2).take 5 = _
  rw [hfilter]
  rfl

/-- A run stores both vertices of the graph. -/
theorem generates_twoWays :
    Generates (fun l => l.mergeSort fun x y => decide (x ≤ y)) CSR.twoWays [draw 2 0, draw 2 1] := by
  refine ⟨5, 1, List.replicate 7 firstSlot, inTurns, fun _ => 0, fun _ => Schedule.ascending, Schedule.ascending,
    le_rfl, by decide,
    twoWays_allUnited, twoWays_stored, ?_⟩
  rw [generateSource_of_isLeast (Contents.ofFn _ _) (fun _ _ hedge => ⟨hedge.1, hedge.lt⟩)
    (fun _ hs => isLeast_ccLabel (fun _ _ => twoWays_edge_symm) twoWays_allUnited twoWays_stored hs)
    (by decide) sorts_labels le_rfl
    (by decide), largestSources_twoWays]

/-- Two rounds on the graph of two vertices, of which both have been stored. -/
theorem searchDriver_visits_twoWays : (∃ k, [draw 2 0, draw 2 1] = (drawnLargest CSR.twoWays.Edge 2).take k) ∧
    ∃ prog largest,
      searchDriver CSR.twoWays 3 (afterRuns [("road".toList, [draw 2 0, draw 2 1])]) "road".toList 2 = some prog ∧
      (∃ source < 2, largest = component CSR.twoWays.Edge source) ∧
      (∀ t < 2, (component CSR.twoWays.Edge t).ncard ≤ Set.ncard largest) ∧
      ∀ s, Total (procedures CSR.twoWays) (fun results _ =>
        results.map (visited 2) = List.replicate 2 largest) prog
        s := by
  have hruns : ∀ run ∈ [("road".toList, [draw 2 0, draw 2 1])], Plain run.1 ∧
      Generates (fun l => l.mergeSort fun x y => decide (x ≤ y)) CSR.twoWays run.2 := by
    intro run hrun
    rw [List.mem_singleton.mp hrun]
    exact ⟨⟨by decide, by decide⟩, generates_twoWays⟩
  have hname : "road".toList ≠ [] := by decide
  have hnum : 2 + 1 < 2 ^ 32 := by decide
  obtain ⟨hlatest, -, hvisits, -⟩ :=
    searchDriver_visits (fun _ => undirected_twoWays) sorts_labels hruns hname hnum rfl
  obtain ⟨k, hk, -⟩ := hlatest "road".toList hname
  exact ⟨⟨k, hk⟩, hvisits (List.cons_ne_nil _ _) le_rfl⟩

end Rounds

end Benchmark

end ToggleTree
