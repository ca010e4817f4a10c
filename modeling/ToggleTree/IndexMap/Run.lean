import ToggleTree.IndexMap.Extract

/-!
# Runs of an index map

A run alternates phases, in which any number of threads insert indices and values of the sequence
are lowered, with repairs and extractions. The map is exact after each repair and each extraction,
because an insertion marks its index in the dirty flags as it would in an index set.
-/

namespace ToggleTree

open ForkJoin ForkJoin.Prog

namespace IndexMap

open IndexSet

variable {T : Type} [LinearOrder T] [OrderTop T]

section Create

variable (sequence : ℕ → T) (n : ℕ) (initValue : Bool)

/-- The least value of a node that the constructor builds. -/
theorem le_initLayer {length : ℕ} {value : ℕ → T} {word : ℕ} {t : T} :
    t ≤ initLayer initValue length value word ↔
      (initValue = true → ∀ j < length, j / 64 = word → t ≤ value j) := by
  cases initValue
  · simp [initLayer]
  · rw [initLayer, if_pos rfl, le_leastOf, Nat.shiftLeft_eq]
    simp only [le_top, true_and, List.mem_range'_1, forall_const]
    constructor
    · intro h j hj hw
      exact h j (by omega)
    · intro h j hj
      exact h j (by omega) (by omega)

/-- The augmented values of a new map are the least values below the nodes. -/
theorem initAugval_eq (K v : ℕ) :
    initAugval sequence n initValue K v = minBelow sequence (if initValue then Finset.range n
      else ∅) (K + 1) v := by
  refine eq_of_forall_le_iff fun t => ?_
  cases initValue
  · rw [le_minBelow]
    cases K <;> simp [initAugval, le_initLayer]
  · rw [if_pos rfl, le_minBelow]
    simp only [Finset.mem_range]
    induction K generalizing v with
    | zero => simp [initAugval, le_initLayer]
    | succ K ih =>
      rw [initAugval, le_initLayer]
      simp only [forall_const, ih]
      constructor
      · intro h i hi hv
        refine h (i / 64 ^ (K + 1)) (div_lt_layerLength hi _) ?_ i hi rfl
        rwa [← div_pow_succ]
      · rintro h j _ rfl i hi rfl
        exact h i hi (div_pow_succ i (K + 1))

/-- The constructor builds an exact map. -/
theorem exact_create :
    Exact n sequence (if initValue then Finset.range n else ∅) (create sequence n initValue) where
  flag := represents_create n initValue
  dirty := represents_create n false
  augval K _ v := initAugval_eq sequence n initValue K v

end Create

/-- Calls of `insert`, one program for each, in any interleaving of their steps until all of them have
returned. -/
inductive Inserts (n : ℕ) (m : IndexMap T) : Finset ℕ → IndexMap T → Prop
  | intro {C : Type} [Fintype C] [DecidableEq C] {env : Empty → Prog IndexSet Empty Unit} (index : C → ℕ)
      {threads : C → Prog IndexSet Empty Bool} {dirty : IndexSet} (result : C → Bool) (hindex : ∀ c, index c < n)
      (run : PoolSteps env (fun c => insert (index c)) m.dirty threads dirty)
      (returned : ∀ c, threads c = ret (result c)) :
      Inserts n m (Finset.univ.image index) { m with dirty := dirty }

/-- Insertions set the dirty flags of an exact map to those of the inserted indices. -/
theorem Inserts.represents {n : ℕ} {sequence : ℕ → T} {S D : Finset ℕ} {m m' : IndexMap T} (h : Inserts n m D m')
    (hexact : Exact n sequence S m) :
    Represents n m'.dirty D ∧ m'.flag = m.flag ∧ m'.augval = m.augval := by
  obtain ⟨index, result, hindex, run, hreturned⟩ := h
  have hrun : PoolSteps _ (fun c => update true (index c)) m.dirty _ _ := run
  obtain ⟨state, rfl, hphase⟩ := Phase.of_run hindex hexact.dirty hrun
  have hrep := ((hphase.guarantees hindex hexact.dirty).finished _ hreturned).2.2.1
  rw [if_pos rfl, Finset.empty_union] at hrep
  exact ⟨hrep, rfl, rfl⟩

/-- The states at rest of an index map: the values of the sequence, the tracked indices and the nodes. -/
inductive Reachable (initial : ℕ → T) (n : ℕ) (initValue : Bool) : (ℕ → T) → Finset ℕ → IndexMap T → Prop
  | create :
    Reachable initial n initValue initial (if initValue then Finset.range n else ∅) (create initial n initValue)
  | repair {sequence sequence' : ℕ → T} {S D : Finset ℕ} {m m' : IndexMap T}
      (h : Reachable initial n initValue sequence S m) (inserts : Inserts n m D m')
      (lowered : Lowered sequence sequence' S D) (schedule : ℕ → ℕ → Checked.Schedule) :
      Reachable initial n initValue sequence' (S ∪ D) (repair schedule sequence' m').2
  | extractMin {sequence : ℕ → T} {S : Finset ℕ} {m : IndexMap T} (h : Reachable initial n initValue sequence S m)
      (schedule : ℕ → ℕ → Checked.Schedule) (threshold : T) :
      Reachable initial n initValue sequence (S \ (extractMin schedule sequence threshold m).2.2.toFinset)
        (extractMin schedule sequence threshold m).2.1

/-- The least values are those of the tracked indices, and no index is waiting for a repair. -/
structure Tracks (n : ℕ) (sequence : ℕ → T) (S : Finset ℕ) (m : IndexMap T) : Prop where
  dirty : ∀ K < numLayers n, ∀ v, m.dirty.load K v = 0
  leaf : ∀ i, m.flag.bit 0 i = true ↔ i ∈ S
  child : ∀ L, L + 1 < numLayers n → ∀ j, m.flag.bit (L + 1) j = true ↔ m.flag.load L j ≠ 0
  augval : ∀ K < numLayers n, ∀ v, m.augval K v = (S.filter fun i => i / 64 ^ (K + 1) = v).inf sequence

/-- An exact map tracks its set. -/
theorem Exact.tracks {n : ℕ} {sequence : ℕ → T} {S : Finset ℕ} {m : IndexMap T} (h : Exact n sequence S m) :
    Tracks n sequence S m where
  dirty K hK v := by
    by_contra hne
    obtain ⟨i, hi, _⟩ := (h.dirty.load_ne_zero hK v).mp hne
    exact Finset.notMem_empty i hi
  leaf := h.flag.leaf
  child := h.flag.child
  augval := h.augval

section Run

variable {initial sequence sequence' : ℕ → T} {n : ℕ} {initValue : Bool} {S D : Finset ℕ} {m m' : IndexMap T}

/-- A repair after insertions into an exact map. -/
theorem Exact.repair (h : Exact n sequence S m) (inserts : Inserts n m D m')
    (lowered : Lowered sequence sequence' S D) (schedule : ℕ → ℕ → Checked.Schedule) :
    (repair schedule sequence' m').1 = (S ∪ D).inf sequence' ∧ Exact n sequence' (S ∪ D)
    (repair schedule sequence' m').2 := by
  obtain ⟨hdirty, hflag, haug⟩ := inserts.represents h
  refine repair_spec schedule lowered (by rw [hflag]; exact h.flag) hdirty fun K hK v => ?_
  rw [haug]
  exact h.augval K hK v

/-- An extraction from an exact map. -/
theorem Exact.extractMin (h : Exact n sequence S m) (schedule : ℕ → ℕ → Checked.Schedule) (threshold : T) :
    Exact n sequence (S \ (extractMin schedule sequence threshold m).2.2.toFinset)
      (extractMin schedule sequence threshold m).2.1 := by
  obtain ⟨hexact, _, hmem, _⟩ := extractMin_spec schedule threshold h
  have hset : S \ (IndexMap.extractMin schedule sequence threshold m).2.2.toFinset =
    above sequence threshold S := by
    ext i
    rw [Finset.mem_sdiff, List.mem_toFinset, hmem, above, Finset.mem_filter]
    exact and_congr_right fun hi => not_congr (and_iff_right hi)
  rw [hset]
  exact hexact

/-- Every reachable map is exact. -/
theorem Reachable.exact (h : Reachable initial n initValue sequence S m) : Exact n sequence S m := by
  induction h with
  | create => exact exact_create initial n initValue
  | repair _ inserts lowered schedule ih => exact (ih.repair inserts lowered schedule).2
  | extractMin _ schedule threshold ih => exact ih.extractMin schedule threshold

/-- In every run the map tracks the least values of the tracked indices; the next repair adds the inserted indices
and returns the least value of all of them, and an extraction removes the indices up to the threshold. -/
theorem reachable_tracks (h : Reachable initial n initValue sequence S m) :
    Tracks n sequence S m ∧
      (∀ sequence' D m' schedule, Inserts n m D m' → Lowered sequence sequence' S D →
        Tracks n sequence' (S ∪ D) (repair schedule sequence' m').2 ∧
          (repair schedule sequence' m').1 = (S ∪ D).inf sequence') ∧
      ∀ schedule threshold, (extractMin schedule sequence threshold m).2.2.Nodup ∧
        ∀ i, i ∈ (extractMin schedule sequence threshold m).2.2 ↔ i ∈ S ∧ sequence i ≤ threshold := by
  have hexact := h.exact
  refine ⟨hexact.tracks, fun sequence' D m' schedule inserts lowered => ?_, fun schedule threshold => ?_⟩
  · obtain ⟨hvalue, hnext⟩ := hexact.repair inserts lowered schedule
    exact ⟨hnext.tracks, hvalue⟩
  · obtain ⟨_, hnodup, hmem, _⟩ := extractMin_spec schedule threshold hexact
    exact ⟨hnodup, hmem⟩

end Run

section Example

/-- The sequence of the example has ten entries. -/
instance ten_neZero : NeZero 10 := ⟨by decide⟩

/-- Values of which the greatest stands for the largest value of the type. -/
def threeValues (i : ℕ) : Fin 10 := if i = 1 then 3 else 7

/-- The same values with that of index 2 lowered. -/
def lowerLast (i : ℕ) : Fin 10 := if i = 1 then 3 else if i = 2 then 1 else 7

/-- A thread can insert index 2. -/
theorem inserts_one : ∃ m, Inserts 3 (create threeValues 3 true) {2} m := by
  have htotal : Total Empty.elim _ (insert 2) (IndexSet.create 3 false) :=
    insert_total Loc.self_lawful (by decide : 2 < 3) (represents_create 3 false)
  obtain ⟨v, dirty, run, _⟩ := PoolSteps.alone htotal (PoolSteps.refl _ _)
  exact ⟨_, Inserts.intro (C := Unit) (fun _ => 2) (fun _ => v) (by decide) run fun _ => rfl⟩

/-- All three indices are tracked, the value at index 2 is lowered, and what is not above it is extracted. -/
theorem reachable_tracks_three : ∃ m, Reachable threeValues 3 true lowerLast {0, 1, 2} m ∧
    Tracks 3 lowerLast {0, 1, 2} m ∧
      ∀ i, i ∈ (extractMin (fun _ _ => Checked.Schedule.ascending) lowerLast 1 m).2.2 ↔
        i ∈ ({0, 1, 2} : Finset ℕ) ∧ lowerLast i ≤ 1 := by
  obtain ⟨m, hm⟩ := inserts_one
  have hlow : Lowered threeValues lowerLast (Finset.range 3) {2} := ⟨by decide, by decide⟩
  have h := Reachable.repair Reachable.create hm hlow fun _ _ => Checked.Schedule.ascending
  have hset : Finset.range 3 ∪ {2} = {0, 1, 2} := by decide
  rw [if_pos rfl, hset] at h
  have htracks := reachable_tracks h
  exact ⟨_, h, htracks.1, (htracks.2.2 (fun _ _ => Checked.Schedule.ascending) 1).2⟩

end Example

end IndexMap

end ToggleTree
