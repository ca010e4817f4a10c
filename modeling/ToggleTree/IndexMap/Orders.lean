import ToggleTree.ForkJoin.Orders
import ToggleTree.IndexMap.Program
import ToggleTree.IndexMap.Traversing

/-!
# The orders of the recursive calls are runs of the programs

The recursive functions on an index map leave open in which order the calls below a node run. For
every choice of these orders the fork–join program of the same name has a run that makes the same
changes and returns the same.
-/

namespace ToggleTree

open ForkJoin ForkJoin.Prog Checked

namespace IndexMap

open IndexSet (wordId wordOffset offsetIndex)
open Concurrent Concurrent.Shared

namespace Program

section Loops

variable {σ ι β μ S : Type} {env : ι → Prog σ ι Unit} (φ : μ → σ) {k : ℕ}

/-- A fold over the iterations in some order, each of which stores its result, is a run of the loop that
collects these results. -/
theorem steps_parallelFold (result : S → ℕ → β) (state : S → μ) {step : ℕ → S → S} (body : ℕ → μ → β × μ)
    (hresult : ∀ r i, result (step i r) = Function.update (result r) i (body i (state r)).1)
    (hstate : ∀ r i, state (step i r) = (body i (state r)).2) {f : ℕ → Prog σ ι β}
    (hf : ∀ i x, i < k → Steps env (f i) (φ x) (ret (body i x).1) (φ (body i x).2))
    (schedule : Schedule) (r : S) :
    Steps env (parallelCollect 0 k f) (φ (state r))
      (ret ((List.range k).map (result (parallelFold schedule k r step))))
      (φ (state (parallelFold schedule k r step))) := by
  have hnodup : (schedule.order k).Nodup := (schedule.perm k).symm.nodup List.nodup_range
  have hperm : (schedule.order k).Perm (List.range' 0 (k - 0)) := by
    rw [Nat.sub_zero, ← List.range_eq_range']
    exact schedule.perm k
  have hchain : Chain (fun i s s' => ∃ x x', s = φ x ∧ s' = φ x' ∧
      body i x = (result (parallelFold schedule k r step) i, x'))
      (schedule.order k) (φ (state r)) (φ (state (parallelFold schedule k r step))) :=
    (chain_foldl_update hresult hstate hnodup r).1.map φ fun i x x' h => ⟨x, x', rfl, rfl, h⟩
  have hsteps : Steps env (parallelCollect 0 k f) (φ (state r))
      (ret ((List.range' 0 (k - 0)).map (result (parallelFold schedule k r step))))
      (φ (state (parallelFold schedule k r step))) := by
    apply steps_parallelCollect _ hperm hchain
    intro i s s' _ hi hwork
    obtain ⟨x, x', rfl, rfl, hbody⟩ := hwork
    have h := hf i x hi
    rwa [hbody] at h
  rw [Nat.sub_zero, ← List.range_eq_range'] at hsteps
  exact hsteps

/-- The same for iterations without results. -/
theorem steps_parallelFold_unit {step : ℕ → μ → μ} {f : ℕ → Prog σ ι Unit}
    (hf : ∀ i x, i < k → Steps env (f i) (φ x) (ret ()) (φ (step i x))) (schedule : Schedule) (x : μ) :
    Steps env (parallelFor 0 k f) (φ x) (ret ()) (φ (parallelFold schedule k x step)) := by
  have hperm : (schedule.order k).Perm (List.range' 0 (k - 0)) := by
    rw [Nat.sub_zero, ← List.range_eq_range']
    exact schedule.perm k
  have hchain : Chain (fun i s s' => ∃ x, s = φ x ∧ s' = φ (step i x)) (schedule.order k) (φ x)
      (φ (parallelFold schedule k x step)) :=
    (chain_foldl step (schedule.order k) x).map φ fun i x x' h => ⟨x, rfl, congrArg φ h⟩
  apply steps_parallelFor _ hperm hchain
  intro i s s' _ hi hwork
  obtain ⟨x, rfl, rfl⟩ := hwork
  exact hf i x hi

end Loops

variable {T ι : Type} [LinearOrder T] [OrderTop T] {env : ι → Prog (Shared T (List ℕ)) ι Unit}

/-- A part of the state is read. -/
theorem steps_get {σ V β : Type} {env : ι → Prog σ ι Unit} {f : σ → V} {k : V → Prog σ ι β}
    {q : Prog σ ι β} {s s' : σ}
    (h : Steps env (k (f s)) s q s') : Steps env (read f >>= k) s q s' := Steps.head ⟨rfl, rfl⟩ h

/-- A location is read. -/
theorem steps_read {σ V β : Type} {env : ι → Prog σ ι Unit} {l : Loc σ V} {k : V → Prog σ ι β}
    {q : Prog σ ι β} {s s' : σ}
    (h : Steps env (k (l.get s)) s q s') : Steps env (atomicRead l >>= k) s q s' := Steps.head ⟨rfl, rfl⟩ h

/-- A location is written. -/
theorem steps_write {σ V β : Type} {env : ι → Prog σ ι Unit} {l : Loc σ V} {x : V} {k : Unit → Prog σ ι β}
    {q : Prog σ ι β} {s s' : σ} (h : Steps env (k ()) (l.put x s) q s') :
    Steps env (atomicWrite l x >>= k) s q s' :=
  Steps.head ⟨rfl, rfl⟩ h

omit [OrderTop T] in
/-- `std::min` of a value and an entry of the sequence. -/
theorem steps_minEntry (aggregate : T) (vertex : ℕ) (st : Shared T (List ℕ)) :
    Steps env (minEntry values aggregate vertex) st (ret (min aggregate (st.sequence vertex))) st := by
  apply steps_read
  change Steps env (if st.sequence vertex < aggregate then _ else _) st _ st
  by_cases h : st.sequence vertex < aggregate
  · rw [if_pos h, min_eq_right h.le]
    exact Steps.head ⟨rfl, rfl⟩ (Steps.refl _ _)
  · rw [if_neg h, min_eq_left (not_lt.mp h)]
    exact Steps.refl _ _

omit [LinearOrder T] [OrderTop T] in
/-- A sequential loop that reads and does not write. -/
theorem steps_foldFor_read {β : Type} {k : ℕ} {init : β} {f : ℕ → β → Prog (Shared T (List ℕ)) ι β}
    {g : β → ℕ → β} {st : Shared T (List ℕ)} (hf : ∀ i b, i < k → Steps env (f i b) st (ret (g b i)) st) :
    Steps env (foldFor 0 k init f) st (ret ((List.range k).foldl g init)) st := by
  have hloop : ∃ b st', Steps env (foldFor 0 k init f) st (ret b) st' ∧ b = (List.range k).foldl g init ∧
    st' = st := by
    apply steps_foldFor (I := fun i b st' => b = (List.range i).foldl g init ∧ st' = st)
      (Nat.zero_le k) ⟨rfl, rfl⟩
    intro i b st' _ hi hb
    obtain ⟨rfl, rfl⟩ := hb
    refine ⟨_, _, hf i _ hi, ?_, rfl⟩
    rw [List.range_succ, List.foldl_append]
    rfl
  obtain ⟨b, st', hsteps, rfl, rfl⟩ := hloop
  exact hsteps

section Repair

variable (schedule : ℕ → ℕ → Schedule)

/-- `repair` leaves the nodes above the layer it starts at. -/
theorem augval_repairAt (sequence : ℕ → T) {layer K : ℕ} (h : layer < K) (index v : ℕ) (m : IndexMap T) :
    (IndexMap.repairAt schedule sequence layer index m).2.augval K v = m.augval K v := by
  induction layer generalizing index m with
  | zero => exact if_neg fun hK => h.ne' hK.1
  | succ layer ih =>
    have hfold {k : ℕ} (order : Schedule) (child : ℕ → ℕ) (m : IndexMap T) :
        (parallelFold order k ((fun _ => ⊤ : ℕ → T), m) fun i (r : (ℕ → T) × IndexMap T) =>
          (Function.update r.1 i (IndexMap.repairAt schedule sequence layer (child i) r.2).1,
            (IndexMap.repairAt schedule sequence layer (child i) r.2).2)).2.augval K v = m.augval K v :=
      parallelFold_invariant (I := fun _ (r : (ℕ → T) × IndexMap T) => r.2.augval K v = m.augval K v) rfl
        fun _ i r _ _ hr => (ih (by omega) (child i) r.2).trans hr
    exact (if_neg fun hK => h.ne' hK.1).trans (hfold _ (fun i => index +
      offsetIndex (layer + 1) (popOffset i (m.dirty.load (layer + 1) (wordId (layer + 1) index)))) _)

omit [LinearOrder T] [OrderTop T] in
/-- The dirty flags of a node are moved. -/
theorem steps_takeDirty (L w : ℕ) (m : IndexMap T) (st : Shared T (List ℕ)) :
    Steps env (takeDirty nodes L w) { st with map := m } (ret (m.dirty.load L w))
      { st with map := (m.setDirty L w 0).setFlag L w (m.flag.load L w ||| m.dirty.load L w) } := by
  apply steps_read
  apply steps_write
  apply steps_read
  apply steps_write
  exact Steps.refl _ _

/-- The rest of `repair` at an inner node, after the dirty flags have been moved. -/
theorem steps_repairNode {k L w : ℕ} {st : Shared T (List ℕ)} {f : ℕ → Prog (Shared T (List ℕ)) ι T}
    {body : ℕ → IndexMap T → T × IndexMap T}
    (hf : ∀ i m, Steps env (f i) { st with map := m } (ret (body i m).1) { st with map := (body i m).2 })
    (hbody : ∀ i m, (body i m).2.augval L w = m.augval L w) (order : Schedule) (m : IndexMap T)
    {r : (ℕ → T) × IndexMap T} (hr : r = parallelFold order k ((fun _ => ⊤ : ℕ → T), m) fun i r =>
      (Function.update r.1 i (body i r.2).1, (body i r.2).2)) :
    Steps env (do
        let augval ← atomicRead (augvalAt nodes L w)
        let aggregates ← parallelCollect 0 k f
        let aggregate := aggregates.foldl min augval
        atomicWrite (augvalAt nodes L w) aggregate
        return aggregate) { st with map := m }
      (ret (leastOf (r.2.augval L w) (List.range k) r.1))
      { st with map := r.2.setAugval L w (leastOf (r.2.augval L w) (List.range k) r.1) } := by
  have haugval : r.2.augval L w = m.augval L w := by
    rw [hr]
    exact parallelFold_invariant (I := fun _ (r : (ℕ → T) × IndexMap T) => r.2.augval L w = m.augval L w) rfl
      fun _ i r _ _ h => (hbody i r.2).trans h
  have haggregate : ((List.range k).map r.1).foldl min (m.augval L w) =
    leastOf (r.2.augval L w) (List.range k) r.1 := by
    rw [haugval, leastOf, List.foldl_map]
  have hchildren : Steps env (parallelCollect 0 k f) { st with map := m } (ret ((List.range k).map r.1))
      { st with map := r.2 } := by
    rw [hr]
    exact steps_parallelFold (fun m : IndexMap T => ({ st with map := m } : Shared T (List ℕ)))
      (fun r : (ℕ → T) × IndexMap T => r.1) (fun r => r.2) body (fun _ _ => rfl) (fun _ _ => rfl)
        (fun i m _ => hf i m) order
      ((fun _ => ⊤ : ℕ → T), m)
  rw [← haggregate]
  apply steps_read
  apply (hchildren.bind_left _).trans
  apply steps_write
  exact Steps.refl _ _

/-- Every order of the calls of `repair` is a run of the program. -/
theorem steps_repairAt (layer index : ℕ) (m : IndexMap T) (st : Shared T (List ℕ)) :
    Steps env (repairAt nodes values layer index) { st with map := m }
      (ret (IndexMap.repairAt schedule st.sequence layer index m).1)
      { st with map := (IndexMap.repairAt schedule st.sequence layer index m).2 } := by
  induction layer generalizing index m with
  | zero =>
    unfold repairAt IndexMap.repairAt
    apply ((steps_takeDirty 0 (wordId 0 index) m st).bind_left _).trans
    apply steps_read
    apply ((steps_foldFor_read fun i b _ =>
      steps_minEntry b (index + popOffset i (m.dirty.load 0 (wordId 0 index))) _).bind_left _).trans
    apply steps_write
    exact Steps.refl _ _
  | succ layer ih =>
    unfold repairAt IndexMap.repairAt
    apply ((steps_takeDirty (layer + 1) (wordId (layer + 1) index) m st).bind_left _).trans
    exact steps_repairNode (fun i m => ih _ m) (fun i m => augval_repairAt schedule st.sequence
      (Nat.lt_succ_self layer) _ _ m)
      _ _ rfl

/-- `repair` -/
theorem steps_repair (m : IndexMap T) (st : Shared T (List ℕ)) :
    Steps env (repair nodes values) { st with map := m } (ret (IndexMap.repair schedule st.sequence m).1)
      { st with map := (IndexMap.repair schedule st.sequence m).2 } := by
  unfold repair IndexMap.repair
  apply steps_get
  apply steps_read
  change Steps env (if m.dirty.load (m.layers - 1) 0 = 0 then _ else _) _ _ _
  by_cases h : m.dirty.load (m.layers - 1) 0 = 0
  · rw [if_pos h, if_pos h]
    exact Steps.head ⟨rfl, rfl⟩ (Steps.refl _ _)
  · rw [if_neg h, if_neg h]
    apply steps_get
    exact steps_repairAt schedule _ _ m st

end Repair

section ExtractPrefix

variable (schedule : ℕ → ℕ → Schedule)

/-- The loop over the flags of a leaf node of `extract_prefix_min`. -/
theorem steps_extractPrefixLeaf (prefixMin : T) (index : ℕ) (word : Word) (st : Shared T (List ℕ)) :
    Steps env (extractPrefixLeaf values prefixMin index word) st
      (ret (scanLeafPrefix st.sequence prefixMin index word)) st := by
  apply steps_foldFor_read
  intro i r _
  apply steps_read
  change Steps env (if st.sequence (index + popOffset i word) ≤ r.2.2 then _ else _) _
    (ret (if st.sequence (index + popOffset i word) ≤ r.2.2 then _ else _)) _
  by_cases h : st.sequence (index + popOffset i word) ≤ r.2.2
  · rw [if_pos h, if_pos h]
    apply steps_read
    exact Steps.refl _ _
  · rw [if_neg h, if_neg h]
    apply ((steps_minEntry r.2.1 (index + popOffset i word) st).bind_left _).trans
    exact Steps.refl _ _

/-- The first loop over the flags of an inner node of `extract_prefix_min`. -/
theorem steps_selectPrefixChildren (prefixMin : T) (layer index : ℕ) (word : Word) (m : IndexMap T)
    (st : Shared T (List ℕ)) :
    Steps env (selectPrefixChildren nodes prefixMin layer index word) { st with map := m }
      (ret (scanNodePrefix prefixMin layer index word m)) { st with map := m } := by
  apply steps_foldFor_read
  intro i r _
  apply steps_read
  change Steps env
    (if m.augval layer (wordId layer (index + offsetIndex (layer + 1)
      (popOffset i word))) ≤ r.prefixMin then _ else _) _
    (ret (if m.augval layer (wordId layer (index + offsetIndex (layer + 1)
      (popOffset i word))) ≤ r.prefixMin then _
      else _)) _
  by_cases h : m.augval layer (wordId layer (index + offsetIndex (layer + 1) (popOffset i word))) ≤ r.prefixMin
  · rw [if_pos h, if_pos h]
    exact Steps.refl _ _
  · rw [if_neg h, if_neg h]
    exact Steps.refl _ _

/-- The last loop over the selected children of an inner node of `extract_prefix_min`. -/
theorem steps_gatherPrefixChildren (layer : ℕ) (r : PrefixScan T) (m : IndexMap T) (st : Shared T (List ℕ)) :
    Steps env (gatherPrefixChildren nodes layer r) { st with map := m }
      (ret ((List.range r.childIndices.length).foldl (fun q i =>
        if m.flag.load layer (wordId layer (r.childIndices.getD i (0, ⊤)).1) ≠ 0 then
          (q.1 ||| wordOffset (layer + 1) (r.childIndices.getD i (0, ⊤)).1,
            min q.2 (m.augval layer (wordId layer (r.childIndices.getD i (0, ⊤)).1)))
        else q) (r.newWord, r.aggregate))) { st with map := m } := by
  apply steps_foldFor_read
  intro i q _
  apply steps_read
  change Steps env (if m.flag.load layer (wordId layer (r.childIndices.getD i (0, ⊤)).1) ≠ 0 then _ else _) _ _ _
  split
  · apply steps_read
    exact Steps.refl _ _
  · exact Steps.refl _ _

/-- Every order of the calls of `extract_prefix_min` is a run of the program. -/
theorem steps_extractPrefixMinAt (layer index : ℕ) (prefixMin : T) (m : IndexMap T) (st : Shared T (List ℕ)) :
    Steps env (extractPrefixMinAt nodes values layer index prefixMin) { st with map := m } (ret ())
      { st with map := IndexMap.extractPrefixMinAt schedule st.sequence layer index prefixMin m } := by
  induction layer generalizing index prefixMin m with
  | zero =>
    unfold extractPrefixMinAt IndexMap.extractPrefixMinAt
    apply steps_read
    apply ((steps_extractPrefixLeaf prefixMin index _ { st with map := m }).bind_left _).trans
    apply steps_write
    exact Steps.head ⟨rfl, rfl⟩ (Steps.refl _ _)
  | succ layer ih =>
    unfold extractPrefixMinAt IndexMap.extractPrefixMinAt
    apply steps_read
    apply ((steps_selectPrefixChildren prefixMin layer index _ m st).bind_left _).trans
    rw [ret_bind]
    apply ((steps_parallelFold_unit (fun m : IndexMap T => ({ st with map := m } : Shared T (List ℕ)))
      (fun i m _ => ih _ _ m) (schedule (layer + 1) (wordId (layer + 1) index)) m).bind_left _).trans
    apply ((steps_gatherPrefixChildren layer _ _ st).bind_left _).trans
    apply steps_write
    exact Steps.head ⟨rfl, rfl⟩ (Steps.refl _ _)

omit [LinearOrder T] [OrderTop T] in
/-- `empty` -/
theorem steps_empty (m : IndexMap T) (st : Shared T (List ℕ)) :
    Steps env (empty nodes) { st with map := m } (ret m.empty) { st with map := m } := by
  apply steps_get
  apply steps_read
  exact Steps.refl _ _

/-- `extract_prefix_min` -/
theorem steps_extractPrefixMin (m : IndexMap T) (st : Shared T (List ℕ)) :
    Steps env (extractPrefixMin nodes values) { st with map := m } (ret ())
      { st with map := IndexMap.extractPrefixMin schedule st.sequence m } := by
  unfold extractPrefixMin IndexMap.extractPrefixMin
  apply ((steps_empty m st).bind_left _).trans
  rw [ret_bind]
  by_cases h : m.empty = true
  · rw [if_pos h, if_pos h]
    exact Steps.refl _ _
  · rw [if_neg h, if_neg h]
    apply steps_get
    exact steps_extractPrefixMinAt schedule _ _ _ m st

end ExtractPrefix

section Extract

variable (schedule : ℕ → ℕ → Schedule)

/-- The function that is passed to `extract_min` notes the vertices down. -/
def noteVertex (vertex : ℕ) (_ : T) : Prog (Shared T (List ℕ)) ι Unit :=
  modify fun st => { st with user := st.user ++ [vertex] }

omit [LinearOrder T] [OrderTop T] in
/-- A call of the function notes its vertex down. -/
theorem steps_noteVertex (vertex : ℕ) (x : T) (calls : List ℕ) (st : Shared T (List ℕ)) :
    Steps env (noteVertex vertex x) { st with user := calls } (ret ()) { st with user := calls ++ [vertex] } :=
  Steps.head ⟨rfl, rfl⟩ (Steps.refl _ _)

/-- What the loop over the first flags of a leaf node of `extract_min` has found. -/
def scanned (sequence : ℕ → T) (threshold : T) (index : ℕ) (word : Word) (k : ℕ) : LeafScan T :=
  (List.range k).foldl (fun r i =>
    if sequence (index + popOffset i word) ≤ threshold then
      { r with extracted := r.extracted ++ [index + popOffset i word] }
    else { r with newWord := r.newWord ||| wordOffset 0 (index + popOffset i word),
                  aggregate := min r.aggregate (sequence (index + popOffset i word)) }) ⟨0, ⊤, []⟩

/-- One more flag is looked at. -/
theorem scanned_succ (sequence : ℕ → T) (threshold : T) (index : ℕ) (word : Word) (k : ℕ) :
    scanned sequence threshold index word (k + 1) =
      if sequence (index + popOffset k word) ≤ threshold then
        { scanned sequence threshold index word k with
          extracted := (scanned sequence threshold index word k).extracted ++ [index + popOffset k word] }
      else { scanned sequence threshold index word k with
        newWord := (scanned sequence threshold index word k).newWord ||| wordOffset 0 (index + popOffset k word)
        aggregate :=
          min (scanned sequence threshold index word k).aggregate (sequence (index + popOffset k word)) } := by
  unfold scanned
  rw [List.range_succ, List.foldl_append]
  rfl

/-- The word and the least value that stay, and the number of calls. -/
def summary (r : LeafScan T) : Concurrent.Extracted T := ⟨r.newWord, r.aggregate, r.extracted.length⟩

/-- The loop over the flags of a leaf node of `extract_min`. -/
theorem steps_extractLeaf (threshold : T) (index : ℕ) (word : Word) (calls : List ℕ) (st : Shared T (List ℕ)) :
    Steps env (Concurrent.extractLeaf values threshold noteVertex index word) { st with user := calls }
      (ret (summary (scanLeaf st.sequence threshold index word)))
      { st with user := calls ++ (scanLeaf st.sequence threshold index word).extracted } := by
  have hloop : ∃ b st', Steps env (Concurrent.extractLeaf values threshold noteVertex index word)
      { st with user := calls } (ret b) st' ∧
        b = summary (scanned st.sequence threshold index word (popCount word)) ∧
        st' = { st with
          user := calls ++ (scanned st.sequence threshold index word (popCount word)).extracted } := by
    unfold Concurrent.extractLeaf
    apply steps_foldFor (I := fun i b (st' : Shared T (List ℕ)) =>
      b = summary (scanned st.sequence threshold index word i) ∧
        st' = { st with user := calls ++ (scanned st.sequence threshold index word i).extracted })
      (Nat.zero_le _)
    · refine ⟨rfl, ?_⟩
      rw [show (scanned st.sequence threshold index word 0).extracted = [] from rfl, List.append_nil]
    · intro i b st' _ _ hb
      obtain ⟨rfl, rfl⟩ := hb
      rw [scanned_succ]
      generalize scanned st.sequence threshold index word i = r
      by_cases h : st.sequence (index + popOffset i word) ≤ threshold
      · refine ⟨_, _, ?_, rfl, rfl⟩
        apply steps_read
        change Steps env (if st.sequence (index + popOffset i word) ≤ threshold then _ else _) _ _ _
        rw [if_pos h, if_pos h]
        dsimp only [summary]
        rw [List.length_append, ← List.append_assoc]
        exact ((steps_noteVertex (index + popOffset i word) _ _ st).bind_left _).trans (Steps.refl _ _)
      · refine ⟨_, _, ?_, rfl, rfl⟩
        apply steps_read
        change Steps env (if st.sequence (index + popOffset i word) ≤ threshold then _ else _) _ _ _
        rw [if_neg h, if_neg h]
        exact ((steps_minEntry r.aggregate (index + popOffset i word) _).bind_left _).trans (Steps.refl _ _)
  obtain ⟨b, st', hsteps, rfl, rfl⟩ := hloop
  exact hsteps

/-- The first loop over the flags of an inner node of `extract_min`. -/
theorem steps_selectChildren (threshold : T) (layer index : ℕ) (word : Word) (m : IndexMap T)
    (st : Shared T (List ℕ)) :
    Steps env (Concurrent.selectChildren nodes threshold layer index word) { st with map := m }
      (ret (scanNode threshold layer index word m)) { st with map := m } := by
  apply steps_foldFor_read
  intro i r _
  apply steps_read
  change Steps env
    (if m.augval layer (wordId layer (index + offsetIndex (layer + 1)
      (popOffset i word))) ≤ threshold then _ else _) _
    (ret (if m.augval layer (wordId layer (index + offsetIndex (layer + 1) (popOffset i word))) ≤ threshold then _
      else _)) _
  by_cases h : m.augval layer (wordId layer (index + offsetIndex (layer + 1) (popOffset i word))) ≤ threshold
  · rw [if_pos h, if_pos h]
    exact Steps.refl _ _
  · rw [if_neg h, if_neg h]
    exact Steps.refl _ _

/-- What the loop over the first selected children of an inner node of `extract_min` has gathered. -/
def gathered (layer : ℕ) (r : NodeScan T) (counts : ℕ → ℕ) (augvals : ℕ → T) (m : IndexMap T) (k : ℕ) :
    Concurrent.Extracted T where
  newWord := (List.range k).foldl (fun newWord i =>
    if m.flag.load layer (wordId layer (r.childIndices.getD i 0)) ≠ 0 then
      newWord ||| wordOffset (layer + 1) (r.childIndices.getD i 0) else newWord) r.newWord
  aggregate := leastOf r.aggregate (List.range k) augvals
  count := ((List.range k).map counts).sum

omit [OrderTop T] in
/-- One more child is gathered. -/
theorem gathered_succ (layer : ℕ) (r : NodeScan T) (counts : ℕ → ℕ) (augvals : ℕ → T) (m : IndexMap T) (k : ℕ) :
    gathered layer r counts augvals m (k + 1) =
      ⟨if m.flag.load layer (wordId layer (r.childIndices.getD k 0)) ≠ 0 then
          (gathered layer r counts augvals m k).newWord ||| wordOffset (layer + 1) (r.childIndices.getD k 0)
        else (gathered layer r counts augvals m k).newWord,
        min (gathered layer r counts augvals m k).aggregate (augvals k),
        (gathered layer r counts augvals m k).count + counts k⟩ := by
  unfold gathered leastOf
  rw [List.range_succ, List.foldl_append, List.foldl_append, List.map_append, List.sum_append]
  rfl

/-- The last loop over the selected children of an inner node of `extract_min`. -/
theorem steps_gatherChildren (layer : ℕ) (r : NodeScan T) (counts : ℕ → ℕ) (augvals : ℕ → T) (m : IndexMap T)
    (st : Shared T (List ℕ)) :
    Steps env (Concurrent.gatherChildren nodes layer r
        ((List.range r.childIndices.length).map fun i => (counts i, augvals i))) { st with map := m }
      (ret (gathered layer r counts augvals m r.childIndices.length)) { st with map := m } := by
  have hloop : ∃ b st', Steps env (Concurrent.gatherChildren nodes layer r
      ((List.range r.childIndices.length).map fun i => (counts i, augvals i))) { st with map := m } (ret b) st' ∧
        b = gathered layer r counts augvals m r.childIndices.length ∧ st' = { st with map := m } := by
    unfold Concurrent.gatherChildren
    apply steps_foldFor (I := fun i b (st' : Shared T (List ℕ)) => b = gathered layer r counts augvals m i ∧
      st' = { st with map := m }) (Nat.zero_le _)
    · exact ⟨rfl, rfl⟩
    · intro i b st' _ hi hb
      obtain ⟨rfl, rfl⟩ := hb
      have hresult : ((List.range r.childIndices.length).map fun i => (counts i, augvals i)).getD i (0, ⊤) =
          (counts i, augvals i) := by
        simp [hi]
      refine ⟨_, _, ?_, rfl, rfl⟩
      dsimp only
      rw [hresult, gathered_succ]
      apply steps_read
      exact Steps.refl _ _
  obtain ⟨b, st', hsteps, rfl, rfl⟩ := hloop
  exact hsteps

/-- The calls below the selected children, in any order. -/
theorem steps_extractChildren {k layer : ℕ} {child : ℕ → ℕ} {st : Shared T (List ℕ)}
    {f : ℕ → Prog (Shared T (List ℕ)) ι ℕ} {body : ℕ → IndexMap T × List ℕ → ℕ × IndexMap T × List ℕ}
    (hf : ∀ i x, Steps env (f i) { st with map := x.1, user := x.2 } (ret (body i x).1)
      { st with map := (body i x).2.1, user := (body i x).2.2 }) (order : Schedule) (x : IndexMap T × List ℕ)
    {q : (ℕ → ℕ) × (ℕ → T) × IndexMap T × List ℕ}
    (hq : q = parallelFold order k ((fun _ => 0 : ℕ → ℕ), (fun _ => ⊤ : ℕ → T), x) fun i q =>
      (Function.update q.1 i (body i q.2.2).1,
        Function.update q.2.1 i ((body i q.2.2).2.1.augval layer (wordId layer (child i))), (body i q.2.2).2)) :
    Steps env (parallelCollect 0 k fun i => do
        let count ← f i
        let aggregate ← atomicRead (augvalAt nodes layer (wordId layer (child i)))
        return (count, aggregate)) { st with map := x.1, user := x.2 }
      (ret ((List.range k).map fun i => (q.1 i, q.2.1 i))) { st with map := q.2.2.1, user := q.2.2.2 } := by
  have hpair (a : ℕ → ℕ) (b : ℕ → T) (i : ℕ) (v : ℕ × T) :
      (fun j => (Function.update a i v.1 j, Function.update b i v.2 j)) =
        Function.update (fun j => (a j, b j)) i v := by
    funext j
    by_cases hj : j = i
    · subst hj
      rw [Function.update_self, Function.update_self, Function.update_self]
    · rw [Function.update_of_ne hj, Function.update_of_ne hj, Function.update_of_ne hj]
  have hbody : ∀ i (x : IndexMap T × List ℕ), i < k → Steps env (do
      let count ← f i
      let aggregate ← atomicRead (augvalAt nodes layer (wordId layer (child i)))
      return (count, aggregate)) { st with map := x.1, user := x.2 }
        (ret ((body i x).1, (body i x).2.1.augval layer (wordId layer (child i))))
        { st with map := (body i x).2.1, user := (body i x).2.2 } := by
    intro i x _
    apply ((hf i x).bind_left _).trans
    apply steps_read
    exact Steps.refl _ _
  rw [hq]
  exact steps_parallelFold (fun x : IndexMap T × List ℕ =>
    ({ st with map := x.1, user := x.2 } : Shared T (List ℕ)))
    (fun (q : (ℕ → ℕ) × (ℕ → T) × IndexMap T × List ℕ) i => (q.1 i, q.2.1 i)) (fun q => q.2.2)
    (fun i x => (((body i x).1, (body i x).2.1.augval layer (wordId layer (child i))), (body i x).2))
    (fun q i => hpair q.1 q.2.1 i ((body i q.2.2).1, (body i q.2.2).2.1.augval layer (wordId layer (child i))))
    (fun _ _ => rfl) hbody order ((fun _ => 0 : ℕ → ℕ), (fun _ => ⊤ : ℕ → T), x)

/-- The rest of `extract_min` at an inner node, after the children have been selected. -/
theorem steps_extractNode {L w layer : ℕ} {scan : NodeScan T} {st : Shared T (List ℕ)}
    {f : ℕ → Prog (Shared T (List ℕ)) ι ℕ} {body : ℕ → IndexMap T × List ℕ → ℕ × IndexMap T × List ℕ}
    (hf : ∀ i x, Steps env (f i) { st with map := x.1, user := x.2 } (ret (body i x).1)
      { st with map := (body i x).2.1, user := (body i x).2.2 }) (order : Schedule) (x : IndexMap T × List ℕ)
    {q : (ℕ → ℕ) × (ℕ → T) × IndexMap T × List ℕ}
    (hq : q = parallelFold order scan.childIndices.length
      ((fun _ => 0 : ℕ → ℕ), (fun _ => ⊤ : ℕ → T), x) fun i q =>
      (Function.update q.1 i (body i q.2.2).1,
        Function.update q.2.1 i ((body i q.2.2).2.1.augval layer (wordId layer (scan.childIndices.getD i 0))),
        (body i q.2.2).2)) :
    Steps env (do
        let results ← parallelCollect 0 scan.childIndices.length fun i => do
          let count ← f i
          let aggregate ← atomicRead (augvalAt nodes layer (wordId layer (scan.childIndices.getD i 0)))
          return (count, aggregate)
        let r ← Concurrent.gatherChildren nodes layer scan results
        atomicWrite (flagAt nodes L w) r.newWord
        atomicWrite (augvalAt nodes L w) r.aggregate
        return r.count) { st with map := x.1, user := x.2 }
      (ret (gathered layer scan q.1 q.2.1 q.2.2.1 scan.childIndices.length).count)
      { st with
        map := (q.2.2.1.setFlag L w
          (gathered layer scan q.1 q.2.1 q.2.2.1 scan.childIndices.length).newWord).setAugval L w
          (gathered layer scan q.1 q.2.1 q.2.2.1 scan.childIndices.length).aggregate
        user := q.2.2.2 } := by
  apply ((steps_extractChildren hf order x hq).bind_left _).trans
  rw [ret_bind]
  apply ((steps_gatherChildren layer scan q.1 q.2.1 q.2.2.1 { st with user := q.2.2.2 }).bind_left _).trans
  apply steps_write
  apply steps_write
  exact Steps.refl _ _

/-- Every order of the calls of `extract_min` is a run of the program. -/
theorem steps_extractMinAt (threshold : T) (layer index : ℕ) (m : IndexMap T) (calls : List ℕ)
    (st : Shared T (List ℕ)) :
    Steps env (Concurrent.extractMinAt nodes values threshold noteVertex layer index)
      { st with map := m, user := calls }
      (ret (IndexMap.extractMinAt schedule st.sequence threshold layer index (m, calls)).1)
      { st with map := (IndexMap.extractMinAt schedule st.sequence threshold layer index (m, calls)).2.1,
                user := (IndexMap.extractMinAt schedule st.sequence threshold layer index (m, calls)).2.2 } := by
  induction layer generalizing index m calls with
  | zero =>
    unfold Concurrent.extractMinAt IndexMap.extractMinAt
    apply steps_read
    apply ((steps_extractLeaf threshold index _ calls { st with map := m }).bind_left _).trans
    apply steps_write
    apply steps_write
    exact Steps.refl _ _
  | succ layer ih =>
    unfold Concurrent.extractMinAt IndexMap.extractMinAt
    apply steps_read
    apply ((steps_selectChildren threshold layer index _ m { st with user := calls }).bind_left _).trans
    exact steps_extractNode (fun i x => ih _ x.1 x.2) (schedule (layer + 1) (wordId (layer + 1) index))
      (m, calls) rfl

/-- `extract_min` -/
theorem steps_extractMin (threshold : T) (m : IndexMap T) (st : Shared T (List ℕ)) :
    Steps env (Concurrent.extractMin nodes values threshold noteVertex) { st with map := m, user := [] }
      (ret (IndexMap.extractMin schedule st.sequence threshold m).1)
      { st with map := (IndexMap.extractMin schedule st.sequence threshold m).2.1,
                user := (IndexMap.extractMin schedule st.sequence threshold m).2.2 } := by
  unfold Concurrent.extractMin IndexMap.extractMin
  apply steps_get
  apply steps_read
  change Steps env (if m.flag.load (m.layers - 1) 0 = 0 then _ else _) _ _ _
  by_cases h : m.flag.load (m.layers - 1) 0 = 0
  · have hempty : m.empty = true := decide_eq_true h
    rw [if_pos h, if_pos hempty]
    exact Steps.refl _ _
  · have hempty : ¬m.empty = true := fun he => h (of_decide_eq_true he)
    rw [if_neg h, if_neg hempty]
    apply steps_get
    exact steps_extractMinAt schedule threshold _ _ m [] st

end Extract

end Program

end IndexMap

end ToggleTree
