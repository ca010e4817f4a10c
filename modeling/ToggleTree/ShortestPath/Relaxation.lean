import ToggleTree.IndexMap.Traversing
import ToggleTree.Parallel.WriteMin
import ToggleTree.ShortestPath.Distance

/-!
# Relaxing the edges of a vertex

The function that `dijkstra` passes to its extractions reads the distance of a vertex once, offers
every out-neighbour a distance through it, and inserts the neighbours that take the offer.
-/

namespace ToggleTree

open ForkJoin ForkJoin.Prog

namespace ShortestPath

open IndexMap IndexMap.Concurrent IndexMap.Concurrent.Shared

/-- The rounds of the main loop. -/
inductive Round
  | next

/-- Programs that work on the distances and the index map; the additions that are evaluated are
noted as pairs of operands. -/
abbrev DijkstraProg (α : Type) := Prog (Shared Distance (List (ℕ × ℕ))) Round α

section Program

variable (G : CSR)

/-- The distance through a vertex at distance `x` along an edge of weight `w`. -/
def extend (x : Distance) (w : ℕ) : DijkstraProg Distance := do
  if 2 ^ 32 - 1 - w < x.val then return ⊤
  else do
    modify fun st => { st with user := st.user ++ [(x.val, w)] }
    return ⟨(x.val + w) % 2 ^ 32, sum_mod_lt x w⟩

/-- The loops of `write_min` on a distance are calls that take one step each. -/
theorem writeMinEntry_takesEffect {ι : Type} [DecidableEq ι] {env : Round → DijkstraProg Unit}
    (s : Shared Distance (List (ℕ × ℕ))) (d : ℕ) (value : ι → Distance) (order : List ι) :
    ∃ y : Distance, (WriteRace.writeMin 32 (fun i => (value i).val) (s.sequence d).val order).shared.value =
      y.val ∧
      PoolSteps env (fun i => writeMinEntry d (value i)) s
        (fun i => WriteRace.left (entry values d) (value i)
          ((WriteRace.writeMin 32 (fun i => (value i).val) (s.sequence d).val order).phase i))
        ((entry values d).put y s) :=
  WriteRace.writeMin_takesEffect (entry_lawful values values_lawful d) Fin.val_strictMono s
    (s.sequence d).isLt value order

/-- Offer the distance `y` to `d`. -/
def offer (d : ℕ) (y : Distance) : DijkstraProg Unit := do
  let lowered ← writeMinEntry d y
  if lowered then do
    let _ ← insertNoted d
    return ()
  else return ()

/-- The function that `dijkstra` passes to `extract_min`. -/
def relaxEdges (s : ℕ) : DijkstraProg Unit := do
  let distS ← atomicRead (entry values s)
  parallelFor (G.outOffset s) (G.outOffset (s + 1)) fun i => do
    let distD ← extend distS (G.weightedOutEdge i).2
    offer (G.weightedOutEdge i).1 distD

end Program

section Lowering

variable {G : CSR}

/-- A parallel loop lowers values if its iterations do. -/
theorem lowering_parallelFor {n start stop : ℕ} {f : ℕ → DijkstraProg Unit}
    (hf : ∀ i, start ≤ i → i < stop → Lowering n 0 (f i)) : Lowering n 0 (parallelFor start stop f) := by
  induction hn : stop - start using Nat.strong_induction_on generalizing start stop with
  | _ k ih =>
    unfold parallelFor
    split
    · split
      · exact hf start le_rfl ‹_›
      · exact Lowering.ret ()
    · exact Lowering.fork 0 0 0 _ _ _ (ih _ (by omega) (fun i hi hi' => hf i hi (by omega)) rfl)
        (ih _ (by omega) (fun i hi hi' => hf i (by omega) hi') rfl) fun _ _ => Lowering.ret ()

/-- An offer lowers values. -/
theorem lowering_offer {n d : ℕ} (hd : d < n) (y : Distance) : Lowering n 0 (offer d y) := by
  refine Lowering.lower 0 d y _ fun lowered => ?_
  cases lowered with
  | false => exact Lowering.ret ()
  | true =>
    have hpaid : (({d} + 0 : Multiset ℕ).filter (· ≠ d)) = 0 := by simp
    refine Lowering.insert _ d hd _ fun _ => ?_
    rw [if_pos rfl, hpaid]
    exact Lowering.ret ()

/-- What follows an extension lowers values. -/
theorem lowering_extend {n : ℕ} (x : Distance) (w : ℕ) {next : Distance → DijkstraProg Unit}
    (hnext : ∀ y, Lowering n 0 (next y)) : Lowering n 0 (extend x w >>= next) := by
  unfold extend
  split
  · exact hnext ⊤
  · exact Lowering.atom 0 _ _ (fun st => ⟨_, rfl⟩) fun _ => hnext _

/-- Every neighbour whose distance is lowered is inserted. -/
theorem lowering_relaxEdges {s : ℕ} (hs : s < G.n) : Lowering G.n 0 (relaxEdges G s) := by
  refine Lowering.atom 0 _ _ (fun st => ⟨st.user, rfl⟩) fun distS => ?_
  refine lowering_parallelFor fun i hi hi' => lowering_extend _ _ fun y => lowering_offer ?_ y
  exact CSR.outEdge_lt hs ⟨hi, hi'⟩

end Lowering

section Relaxing

variable {G : CSR} {source : ℕ} {before : ℕ → Distance}

/-- The out-neighbours of `v` have been offered what its distance was. -/
def Relaxed (G : CSR) (before : ℕ → Distance) (v : ℕ) (st : Shared Distance (List (ℕ × ℕ))) : Prop :=
  ∃ x, Between before st v x ∧
    ∀ i, G.OutSlot v i → st.sequence (G.outEdge i) ≤ extended x (G.weightedOutEdge i).2

/-- The distances and the noted calls, insertions and additions while an extraction runs. A branch
holds the vertices that it has lowered without inserting them, and its calls that have not returned. -/
structure Relaxing (G : CSR) (source : ℕ) (before : ℕ → Distance) (st : Shared Distance (List (ℕ × ℕ)))
    (tokens : Multiset ℕ × Multiset ℕ) : Prop where
  sound : ∀ v, goal G source v ≤ st.sequence v
  le : ∀ v, st.sequence v ≤ before v
  lowered : ∀ v, st.sequence v = before v ∨ v ∈ st.inserted ∨ v ∈ tokens.1
  inserted : ∀ v ∈ st.inserted, st.sequence v < before v
  owed : ∀ v ∈ tokens.1, st.sequence v < before v
  finished : ∀ v ∈ st.calls.map Prod.fst, v ∈ tokens.2 ∨ Relaxed G before v st
  sums : ∀ p ∈ st.user, p.1 + p.2 < 2 ^ 32

/-- The branches keep `Relaxing` together; distances only fall. -/
def relaxing (G : CSR) (source : ℕ) (before : ℕ → Distance) :
    Protocol (Shared Distance (List (ℕ × ℕ))) (Multiset ℕ × Multiset ℕ) where
  inv := Relaxing G source before
  rel st st' := ∀ v, st'.sequence v ≤ st.sequence v
  refl _ _ := le_rfl
  trans h h' v := (h' v).trans (h v)

/-- What has been relaxed stays so. -/
theorem Relaxed.rel {v : ℕ} {st st' : Shared Distance (List (ℕ × ℕ))} (h : Relaxed G before v st)
    (hrel : (relaxing G source before).rel st st') : Relaxed G before v st' := by
  obtain ⟨x, hx, hedges⟩ := h
  exact ⟨x, ⟨(hrel v).trans hx.1, hx.2⟩, fun i hi => (hrel _).trans (hedges i hi)⟩

variable {env : Round → DijkstraProg Unit}

/-- A step that works on the nodes only. -/
def OnNodes (st st' : Shared Distance (List (ℕ × ℕ))) : Prop := ∃ m, st' = { st with map := m }

/-- A step on the nodes keeps the relation. -/
theorem OnNodes.rel {st st' : Shared Distance (List (ℕ × ℕ))} (h : OnNodes st st') :
    (relaxing G source before).rel st st' := by
  obtain ⟨m, rfl⟩ := h
  exact fun _ => le_rfl

/-- A step on the nodes keeps the invariant. -/
theorem OnNodes.inv {st st' : Shared Distance (List (ℕ × ℕ))} {tokens : Multiset ℕ × Multiset ℕ}
    (h : OnNodes st st')
    (hinv : (relaxing G source before).inv st tokens) : (relaxing G source before).inv st' tokens := by
  obtain ⟨m, rfl⟩ := h
  exact { hinv with }

/-- The insertion that is noted uses its claim up. -/
theorem insertNoted_relaxing {d : ℕ} (st : Shared Distance (List (ℕ × ℕ))) :
    Ensures (relaxing G source before) env (fun _ _ a => a = 0) (insertNoted d) st ({d}, 0) := by
  refine Ensures.modify fun st' o _ hinv => ⟨0, fun _ => le_rfl, ?_, ?_⟩
  · have hmem : d ∈ {d} + o.1 := Multiset.mem_add.mpr (Or.inl (Multiset.mem_singleton_self d))
    have hd : st'.sequence d < before d := Relaxing.owed hinv d hmem
    refine { hinv with lowered := fun v => ?_, inserted := fun v hv => ?_, owed := fun v hv => ?_ }
    · change st'.sequence v = before v ∨ v ∈ st'.inserted ++ [d] ∨ v ∈ 0 + o.1
      have hv : st'.sequence v = before v ∨ v ∈ st'.inserted ∨ v ∈ {d} + o.1 := Relaxing.lowered hinv v
      rw [zero_add, List.mem_append, List.mem_singleton]
      rw [Multiset.mem_add, Multiset.mem_singleton] at hv
      rcases hv with hv | hv | hv | hv
      · exact Or.inl hv
      · exact Or.inr (Or.inl (Or.inl hv))
      · exact Or.inr (Or.inl (Or.inr hv))
      · exact Or.inr (Or.inr hv)
    · rcases List.mem_append.mp hv with hv | hv
      · exact Relaxing.inserted hinv v hv
      · rw [List.mem_singleton.mp hv]
        exact hd
    · change v ∈ 0 + o.1 at hv
      rw [zero_add] at hv
      exact Relaxing.owed hinv v (Multiset.mem_add.mpr (Or.inr hv))
  · have hcalls : Calls OnNodes (fun e : Empty => (e.elim : DijkstraProg Unit)) (insert nodes d) :=
      calls_insert (fun s => ⟨s.map, rfl⟩) (fun m _ => ⟨m, rfl⟩) _ d
    exact hcalls.ensures (fun _ _ => OnNodes.rel) (fun _ _ _ => OnNodes.inv) (fun e => e.elim) _

/-- A step of the loop over the out-edges. -/
theorem offer_relaxing {d : ℕ} {y : Distance} (hy : goal G source d ≤ y) (st : Shared Distance (List (ℕ × ℕ))) :
    Ensures (relaxing G source before) env (fun _ st' a => st'.sequence d ≤ y ∧ a = 0) (offer d y) st 0 := by
  refine Ensures.act fun st' o _ hinv => ?_
  have hget : (entry values d).get st' = st'.sequence d := rfl
  rw [hget]
  by_cases hlt : y < st'.sequence d
  · rw [if_pos hlt, decide_eq_true hlt]
    have hvalue (v : ℕ) : Function.update st'.sequence d y v ≤ st'.sequence v := by
      by_cases hv : v = d
      · rw [hv, Function.update_self]
        exact hlt.le
      · rw [Function.update_of_ne hv]
    have hlow : y < before d := hlt.trans_le (Relaxing.le hinv d)
    have hrel : (relaxing G source before).rel st' ((entry values d).put y st') := hvalue
    refine ⟨({d}, 0), hrel, ?_, ?_⟩
    · refine ⟨fun v => ?_, fun v => (hvalue v).trans (Relaxing.le hinv v), fun v => ?_, fun v hv => ?_,
        fun v hv => ?_,
        fun v hv => ?_, fun p (hp : p ∈ st'.user) => Relaxing.sums hinv p hp⟩
      · change goal G source v ≤ Function.update st'.sequence d y v
        by_cases hv : v = d
        · rw [hv, Function.update_self]
          exact hy
        · rw [Function.update_of_ne hv]
          exact Relaxing.sound hinv v
      · change Function.update st'.sequence d y v = before v ∨ v ∈ st'.inserted ∨ v ∈ {d} + o.1
        by_cases hv : v = d
        · exact Or.inr (Or.inr (by simp [hv]))
        · rw [Function.update_of_ne hv]
          refine (Relaxing.lowered hinv v).imp_right (Or.imp_right fun h => ?_)
          change v ∈ 0 + o.1 at h
          rw [zero_add] at h
          exact Multiset.mem_add.mpr (Or.inr h)
      · exact (hvalue v).trans_lt (Relaxing.inserted hinv v hv)
      · change v ∈ {d} + o.1 at hv
        rcases Multiset.mem_add.mp hv with hv | hv
        · rw [Multiset.mem_singleton.mp hv]
          change Function.update st'.sequence d y d < before d
          rwa [Function.update_self]
        · exact (hvalue v).trans_lt (Relaxing.owed hinv v (by
            change v ∈ 0 + o.1
            rwa [zero_add]))
      · exact (Relaxing.finished hinv v hv).imp_right fun h => h.rel hrel
    · rw [if_pos rfl]
      have hd : ((entry values d).put y st').sequence d ≤ y := by
        change Function.update st'.sequence d y d ≤ y
        rw [Function.update_self]
      refine ((insertNoted_relaxing _).withStable (K := fun st => st.sequence d ≤ y)
        (fun _ _ hrel' h => (hrel' d).trans h) hd).bind ?_
      rintro _ st'' _ ⟨rfl, hd'⟩
      exact Ensures.ret fun _ _ hrel' hinv' => ⟨0, hinv', (hrel' d).trans hd', rfl⟩
  · rw [if_neg hlt, decide_eq_false hlt, if_neg Bool.false_ne_true]
    exact ⟨0, fun _ => le_rfl, hinv, Ensures.ret fun _ _ hrel hinv' =>
      ⟨0, hinv', (hrel d).trans (not_lt.mp hlt), rfl⟩⟩

/-- The addition that is evaluated does not wrap. -/
theorem extend_relaxing (x : Distance) {w : ℕ} (hw : w < 2 ^ 32) (st : Shared Distance (List (ℕ × ℕ))) :
    Ensures (relaxing G source before) env (fun y _ a => y = extended x w ∧ a = 0) (extend x w) st 0 := by
  unfold extend extended
  split
  · exact Ensures.ret fun _ _ _ hinv => ⟨0, hinv, rfl, rfl⟩
  · next hle =>
    refine Ensures.modify fun st' o _ hinv => ⟨0, fun _ => le_rfl, ?_, ?_⟩
    · refine { hinv with sums := fun p hp => ?_ }
      rcases List.mem_append.mp hp with hp | hp
      · exact Relaxing.sums hinv p hp
      · rw [List.mem_singleton.mp hp]
        change x.val + w < 2 ^ 32
        omega
    · exact Ensures.ret fun _ _ _ hinv' => ⟨0, hinv', rfl, rfl⟩

/-- A call offers every out-neighbour the distance through its vertex. -/
theorem relaxEdges_relaxing (hsource : source < G.n) (s : ℕ) (st : Shared Distance (List (ℕ × ℕ))) :
    Ensures (relaxing G source before) env (fun _ st' a => Relaxed G before s st' ∧ a = 0)
      (relaxEdges G s) st 0 := by
  refine Ensures.read fun st' o _ hinv => ?_
  have hx : Between before st' s (st'.sequence s) := ⟨le_rfl, Relaxing.le hinv s⟩
  have hsound : goal G source s ≤ st'.sequence s := Relaxing.sound hinv s
  have hget : (entry values s).get st' = st'.sequence s := rfl
  rw [hget]
  generalize st'.sequence s = x at hx hsound
  have hloop : Ensures (relaxing G source before) env
      (fun _ st'' a => (∀ i, G.outOffset s ≤ i → i < G.outOffset (s + 1) →
        st''.sequence (G.outEdge i) ≤ extended x (G.weightedOutEdge i).2) ∧ a = 0)
      (parallelFor (G.outOffset s) (G.outOffset (s + 1)) fun i => do
        let distD ← extend x (G.weightedOutEdge i).2
        offer (G.weightedOutEdge i).1 distD) st' 0 := by
    refine Ensures.parallelForZero (fun i st₁ st₂ _ hrel h => (hrel _).trans h) fun i hi hi' => ?_
    refine (extend_relaxing x (G.weightedOutEdge_snd_lt i) st').bind ?_
    rintro _ st₁ _ ⟨rfl, rfl⟩
    exact offer_relaxing (goal_le_extended hsource hsound ⟨hi, hi'⟩) st₁
  refine (hloop.withStable (K := fun st => Between before st s x)
    (fun _ _ hrel h => ⟨(hrel s).trans h.1, h.2⟩) hx).mono ?_
  rintro _ st'' _ ⟨⟨hedges, rfl⟩, hbetween⟩
  exact ⟨⟨x, hbetween, fun i hi => hedges i hi.1 hi.2⟩, rfl⟩

/-- A call that is noted before it is made has relaxed its edges once it has returned. -/
theorem visitor_relaxing (hsource : source < G.n) (v : ℕ) (value : Distance)
    (st : Shared Distance (List (ℕ × ℕ))) :
    Ensures (relaxing G source before) env (fun _ _ a => a = 0) (visitor (relaxEdges G) v value) st 0 := by
  refine Ensures.modify fun st' o _ hinv => ⟨(0, {v}), fun _ => le_rfl, ?_, ?_⟩
  · refine { hinv with finished := fun u hu => ?_ }
    change u ∈ (st'.calls ++ [(v, value)]).map Prod.fst at hu
    change u ∈ {v} + o.2 ∨ Relaxed G before u st'
    rw [List.map_append, List.mem_append] at hu
    rw [Multiset.mem_add]
    rcases hu with hu | hu
    · refine (Relaxing.finished hinv u hu).imp_left fun h => Or.inr ?_
      change u ∈ 0 + o.2 at h
      rwa [zero_add] at h
    · exact Or.inl (Or.inl (Multiset.mem_singleton.mpr (List.mem_singleton.mp hu)))
  · have hedges : Ensures (relaxing G source before) env (fun _ st'' a => Relaxed G before v st'' ∧ a = 0)
        (relaxEdges G v) { st' with calls := st'.calls ++ [(v, value)] } 0 := relaxEdges_relaxing hsource v _
    have hcall := hedges.frame (0, {v})
    rw [zero_add] at hcall
    have hreturn : Ensures (relaxing G source before) env (fun _ _ a => a = 0) (relaxEdges G v >>= ret)
        { st' with calls := st'.calls ++ [(v, value)] } (0, {v}) := by
      refine hcall.bind ?_
      rintro _ st₁ _ ⟨_, ⟨hrelaxed, rfl⟩, rfl⟩
      refine Ensures.ret fun st₂ o' hrel hinv' => ⟨0, { hinv' with finished := fun u hu => ?_ }, rfl⟩
      change u ∈ 0 + o'.2 ∨ Relaxed G before u st₂
      have hu' : u ∈ (0 + {v} : Multiset ℕ) + o'.2 ∨ Relaxed G before u st₂ := Relaxing.finished hinv' u hu
      rw [zero_add, Multiset.mem_add, Multiset.mem_singleton] at hu'
      rw [zero_add]
      rcases hu' with (rfl | hu') | hu'
      · exact Or.inr (hrelaxed.rel hrel)
      · exact Or.inl hu'
      · exact Or.inr hu'
    rwa [bind_ret] at hreturn

end Relaxing

end ShortestPath

end ToggleTree
