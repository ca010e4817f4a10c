import ToggleTree.BreadthFirstSearch.Program

/-!
# The invariant of a local search

A local search between the distances `r` and `B` relaxes edges in no particular order, from
distances that may still fall. Three things carry it. No cell falls below its goal. Every reached
vertex other than the source has an in-neighbour at a distance at least one less, so the least
distance that a vertex gathers does not exceed its own. And each out-slot of a vertex below `B`
is relaxed, or some branch owes a relaxation of it at the vertex's present distance.

What the branches owe is their resource: slots to be relaxed, and vertices at distance `B` that
must still enter the next frontier.
-/

namespace ToggleTree

open ForkJoin ForkJoin.Prog

namespace Search

/-- The distance of a vertex that is not reached. -/
def topLevel : ℕ := 2 ^ 32 - 1

/-- What the cells of a search must hold at its end. -/
structure Labelling (G : CSR) (L : Labels) (source unreached : ℕ) (goal : ℕ → ℕ) : Prop where
  size : G.n < 2 ^ 32
  source_lt : source < G.n
  level_mono : ∀ a b, a ≤ b → L.level a ≤ L.level b
  level_make : ∀ x p, x < 2 ^ 32 → p < 2 ^ 32 → L.level (L.make x p) = x
  level_unreached : L.level unreached = topLevel
  goal_le_unreached : ∀ v, goal v ≤ unreached
  goal_unreached : ∀ v, topLevel ≤ L.level (goal v) → goal v = unreached
  level_source : L.level (goal source) = 0
  goal_lt : ∀ v, L.level (goal v) < topLevel → v < G.n
  /-- No edge leads from a goal to a value below the next goal. -/
  goal_le : ∀ u v x, G.Edge u v → L.level (goal u) ≤ x → x + 1 < 2 ^ 32 → goal v ≤ L.make (x + 1) u
  /-- Every goal is the value for an edge from a vertex one closer to the source. -/
  goal_eq : ∀ v, v ≠ source → L.level (goal v) < topLevel →
    ∃ u, G.Edge u v ∧ L.level (goal u) + 1 = L.level (goal v) ∧ goal v = L.make (L.level (goal v)) u

/-- Slots owed with the distance they must be relaxed at, and vertices owed to the next frontier. -/
abbrev Debt := Multiset (ℕ × ℕ × ℕ) × Multiset ℕ

/-- Slot `i` of `u` is to be relaxed at distance `x`. -/
def owed (u i x : ℕ) : Debt := ({(u, i, x)}, 0)

/-- Vertex `v` is to be inserted into the next frontier. -/
def due (v : ℕ) : Debt := (0, {v})

section

variable (G : CSR) (L : Labels) (source unreached : ℕ) (goal : ℕ → ℕ) (r B : ℕ)

/-- All slots of `u` are to be relaxed at distance `x`. -/
def owedSlots (u x : ℕ) : Debt := ∑ i ∈ Finset.Ico (G.outOffset u) (G.outOffset (u + 1)), owed u i x

/-- The distance in the cell of `v`. -/
def levelOf (s : SearchState) (v : ℕ) : ℕ := L.level (s.dist v)

/-- The cell of `v` holds a distance. -/
def Reached (s : SearchState) (v : ℕ) : Prop := levelOf L s v < topLevel

/-- Whether a vertex is reached can be decided. -/
instance (s : SearchState) : DecidablePred (Reached L s) :=
  fun v => inferInstanceAs (Decidable (levelOf L s v < topLevel))

/-- The number of reached vertices. -/
def reachedCount (s : SearchState) : ℕ := ((Finset.range G.n).filter (Reached L s)).card

/-- The sum of all cells, which every successful write lowers. -/
def weight (s : SearchState) : ℕ := ∑ v ∈ Finset.range G.n, s.dist v

/-- The invariant of the relaxations of a round, with the slots and the insertions that are still owed.
-/
structure SearchInv (s : SearchState) (t : Debt) : Prop where
  lower : ∀ v, goal v ≤ s.dist v
  settled : ∀ v, L.level (goal v) ≤ r → s.dist v ≤ goal v
  same : ∀ v, ¬Reached L s v → s.dist v = unreached
  parent : ∀ v, v ≠ source → Reached L s v → ∃ u, G.Edge u v ∧ levelOf L s u + 1 ≤ levelOf L s v
  bounded : ∀ v, Reached L s v → levelOf L s v + 1 ≤ reachedCount G L s ∧ levelOf L s v ≤ B
  cover : ∀ u i, u < G.n → G.OutSlot u i → Reached L s u → levelOf L s u < B →
    s.dist (G.outEdge i) ≤ L.make (levelOf L s u + 1) u ∨ (u, i, levelOf L s u) ∈ t.1
  last : ∀ v, Reached L s v → levelOf L s v = B → v ∈ s.nextFrontier ∨ v ∈ t.2
  fresh : ∀ v, v ∈ s.nextFrontier ∨ v ∈ t.2 → r < L.level (goal v) ∧ Reached L s v

/-- Cells only fall, and the two other sets are not touched. -/
def SearchRel (s s' : SearchState) : Prop :=
  (∀ v, s'.dist v ≤ s.dist v) ∧ s'.active = s.active ∧ s'.frontier = s.frontier

/-- What the branches of a local search promise each other. -/
def searchProtocol : Protocol SearchState Debt where
  inv := SearchInv G L source unreached goal r B
  rel := SearchRel
  refl _ := ⟨fun _ => le_rfl, rfl, rfl⟩
  trans h h' := ⟨fun v => (h'.1 v).trans (h.1 v), h'.2.1.trans h.2.1, h'.2.2.trans h.2.2⟩

/-- A vertex whose slots are owed at distance `x`, however far its cell has fallen since. -/
structure Queued (s : SearchState) (v x : ℕ) : Prop where
  lt : v < G.n
  ne : v ≠ source
  level_le : levelOf L s v ≤ x
  below : x < B
  count : x + 1 ≤ reachedCount G L s

end

variable {G : CSR} {L : Labels} {source unreached : ℕ} {goal : ℕ → ℕ} {r B : ℕ} {s s' : SearchState}
  {u v x y value : ℕ} {a o : Debt}

/-- The owed slots of a sum. -/
theorem mem_fst_add {e : ℕ × ℕ × ℕ} : e ∈ (a + o).1 ↔ e ∈ a.1 ∨ e ∈ o.1 := by
  rw [Prod.fst_add, Multiset.mem_add]

/-- The owed insertions of a sum. -/
theorem mem_snd_add : v ∈ (a + o).2 ↔ v ∈ a.2 ∨ v ∈ o.2 := by
  rw [Prod.snd_add, Multiset.mem_add]

/-- The owed slot. -/
@[simp] theorem mem_owed {e : ℕ × ℕ × ℕ} {i : ℕ} : e ∈ (owed u i x).1 ↔ e = (u, i, x) :=
  Multiset.mem_singleton

/-- An owed slot owes no insertion. -/
@[simp] theorem not_mem_owed {i : ℕ} : v ∉ (owed u i x).2 := Multiset.notMem_zero v

/-- An owed insertion owes no slot. -/
@[simp] theorem not_mem_due {e : ℕ × ℕ × ℕ} : e ∉ (due v).1 := Multiset.notMem_zero e

/-- The owed insertion. -/
@[simp] theorem mem_due : u ∈ (due v).2 ↔ u = v := Multiset.mem_singleton

/-- The owed slots of a vertex. -/
@[simp] theorem mem_owedSlots {e : ℕ × ℕ × ℕ} :
    e ∈ (owedSlots G u x).1 ↔ ∃ i, G.OutSlot u i ∧ e = (u, i, x) := by
  rw [owedSlots, Prod.fst_sum, Multiset.mem_sum]
  simp only [mem_owed, Finset.mem_Ico, CSR.OutSlot]

/-- The owed slots of a vertex owe no insertion. -/
@[simp] theorem not_mem_owedSlots : v ∉ (owedSlots G u x).2 := by
  rw [owedSlots, Prod.snd_sum, Multiset.mem_sum]
  rintro ⟨i, _, hi⟩
  exact not_mem_owed hi

/-- Nothing owes no slot. -/
theorem not_mem_zero_fst {e : ℕ × ℕ × ℕ} : e ∉ (0 : Debt).1 := Multiset.notMem_zero e

/-- Nothing owes no insertion. -/
theorem not_mem_zero_snd : v ∉ (0 : Debt).2 := Multiset.notMem_zero v

/-- What the search keeps is transitive. -/
theorem SearchRel.trans {s'' : SearchState} (h : SearchRel s s') (h' : SearchRel s' s'') : SearchRel s s'' :=
  ⟨fun v => (h'.1 v).trans (h.1 v), h'.2.1.trans h.2.1, h'.2.2.trans h.2.2⟩

/-- The weight does not grow. -/
theorem weight_le (h : SearchRel s s') : weight G s' ≤ weight G s := Finset.sum_le_sum fun v _ => h.1 v

/-- There are at most as many reached vertices as vertices. -/
theorem reachedCount_le (s : SearchState) : reachedCount G L s ≤ G.n := by
  refine (Finset.card_filter_le _ _).trans ?_
  rw [Finset.card_range]

/-- A vertex that is not reached is not counted. -/
theorem reachedCount_lt (hv : v < G.n) (h : ¬Reached L s v) : reachedCount G L s < G.n := by
  have hsub : (Finset.range G.n).filter (Reached L s) ⊂ Finset.range G.n :=
    Finset.filter_ssubset.mpr ⟨v, Finset.mem_range.mpr hv, h⟩
  have := Finset.card_lt_card hsub
  rwa [Finset.card_range] at this

namespace Labelling

variable (hL : Labelling G L source unreached goal)
include hL

/-- The levels do not grow. -/
theorem levelOf_le (h : SearchRel s s') (v : ℕ) : levelOf L s' v ≤ levelOf L s v :=
  hL.level_mono _ _ (h.1 v)

/-- A reached vertex stays reached. -/
theorem reached (h : SearchRel s s') (hv : Reached L s v) : Reached L s' v :=
  (hL.levelOf_le h v).trans_lt hv

/-- The number of reached vertices does not shrink. -/
theorem reachedCount_mono (h : SearchRel s s') : reachedCount G L s ≤ reachedCount G L s' :=
  Finset.card_le_card fun _ hv => Finset.mem_filter.mpr
    ⟨(Finset.mem_filter.mp hv).1, hL.reached h (Finset.mem_filter.mp hv).2⟩

/-- A newly reached vertex is counted in addition to the others. -/
theorem reachedCount_succ_le (h : SearchRel s s') (hv : v < G.n) (hold : ¬Reached L s v)
    (hnew : Reached L s' v) : reachedCount G L s + 1 ≤ reachedCount G L s' := by
  have hsub : insert v ((Finset.range G.n).filter (Reached L s)) ⊆ (Finset.range G.n).filter (Reached L s') := by
    intro w hw
    rcases Finset.mem_insert.mp hw with rfl | hw
    · exact Finset.mem_filter.mpr ⟨Finset.mem_range.mpr hv, hnew⟩
    · exact Finset.mem_filter.mpr ⟨(Finset.mem_filter.mp hw).1, hL.reached h (Finset.mem_filter.mp hw).2⟩
  have hcard := Finset.card_le_card hsub
  rwa [Finset.card_insert_of_notMem fun hw => hold (Finset.mem_filter.mp hw).2] at hcard

/-- A queued vertex stays queued or gets a lower value. -/
theorem queued (h : SearchRel s s') (hq : Queued G L source B s v x) : Queued G L source B s' v x :=
  ⟨hq.lt, hq.ne, (hL.levelOf_le h v).trans hq.level_le, hq.below, hq.count.trans (hL.reachedCount_mono h)⟩

/-- The distances at which slots are owed are far from the top. -/
theorem level_lt (hq : Queued G L source B s v x) : x + 1 < 2 ^ 32 :=
  lt_of_le_of_lt (hq.count.trans (reachedCount_le s)) hL.size

/-- A queued vertex is reached. -/
theorem reached_of_queued (hq : Queued G L source B s v x) : Reached L s v := by
  refine lt_of_le_of_lt hq.level_le ?_
  have := hL.level_lt hq
  unfold topLevel
  omega

end Labelling

/-- The state after the cell of `v` got a smaller value. -/
theorem searchRel_put (h : value < s.dist v) : SearchRel s ((cell v).put value s) := by
  refine ⟨fun w => ?_, rfl, rfl⟩
  change Function.update s.dist v value w ≤ s.dist w
  rcases eq_or_ne w v with rfl | hne
  · rw [Function.update_self]
    exact h.le
  · rw [Function.update_of_ne hne]

/-- A lower value lowers the weight. -/
theorem weight_put_lt (hv : v < G.n) (h : value < s.dist v) :
    weight G ((cell v).put value s) < weight G s := by
  refine Finset.sum_lt_sum (fun w _ => (searchRel_put h).1 w) ⟨v, Finset.mem_range.mpr hv, ?_⟩
  change Function.update s.dist v value v < s.dist v
  rwa [Function.update_self]

/-- The entry that is written. -/
theorem dist_put_self : ((cell v).put value s).dist v = value := by
  change Function.update s.dist v value v = value
  exact Function.update_self _ _ _

/-- The entries that are not written. -/
theorem dist_put_of_ne {w : ℕ} (h : w ≠ v) : ((cell v).put value s).dist w = s.dist w := by
  change Function.update s.dist v value w = s.dist w
  exact Function.update_of_ne h _ _

/-- What becomes owed when the cell of `v` falls to distance `y`. -/
def debtAt (G : CSR) (B v y : ℕ) : Debt := if y < B then owedSlots G v y else due v

namespace SearchInv

/-- A vertex whose cell can fall is beyond `r`. -/
theorem lt_level_of_lt (h : SearchInv G L source unreached goal r B s o) (hlt : value < s.dist v)
    (hgoal : goal v ≤ value) : r < L.level (goal v) := by
  by_contra hle
  have := h.settled v (by omega)
  omega

variable (hL : Labelling G L source unreached goal)
include hL

/-- A vertex whose value can still be lowered is not the source. -/
theorem ne_source (h : SearchInv G L source unreached goal r B s o) (hlt : value < s.dist v)
    (hgoal : goal v ≤ value) : v ≠ source := by
  rintro rfl
  have := h.lt_level_of_lt hlt hgoal
  rw [hL.level_source] at this
  omega

/-- Lowering a cell keeps the invariant if the slots of its vertex become owed. What was owed
for the same vertex before may be dropped. -/
theorem lower_cell {old : Debt} (h : SearchInv G L source unreached goal r B s (old + o))
    (hold : ∀ e ∈ old.1, e.1 = v) (hold' : ∀ w, w ∉ old.2) (hv : v < G.n) (hlt : value < s.dist v)
    (hgoal : goal v ≤ value) (hlevel : L.level value = y) (hyB : y ≤ B) (hcount : y ≤ reachedCount G L s)
    (hparent : ∃ u, G.Edge u v ∧ levelOf L s u + 1 ≤ y) :
    SearchInv G L source unreached goal r B ((cell v).put value s) (debtAt G B v y + o) ∧
      levelOf L ((cell v).put value s) v = y ∧ y + 1 ≤ reachedCount G L ((cell v).put value s) := by
  have hrel : SearchRel s ((cell v).put value s) := searchRel_put hlt
  have hself : levelOf L ((cell v).put value s) v = y := by
    rw [levelOf, dist_put_self, hlevel]
  have hother {w : ℕ} (hw : w ≠ v) : levelOf L ((cell v).put value s) w = levelOf L s w := by
    rw [levelOf, levelOf, dist_put_of_ne hw]
  have hreached : Reached L ((cell v).put value s) v := by
    rw [Reached, hself]
    by_cases hr : Reached L s v
    · exact lt_of_le_of_lt (hlevel ▸ hL.level_mono _ _ hlt.le) hr
    · have := reachedCount_lt hv hr
      have := hL.size
      unfold topLevel
      omega
  have hcount' : y + 1 ≤ reachedCount G L ((cell v).put value s) := by
    by_cases hr : Reached L s v
    · have hle : y ≤ levelOf L s v := hlevel ▸ hL.level_mono _ _ hlt.le
      have := (h.bounded v hr).1
      have := hL.reachedCount_mono hrel
      omega
    · have := hL.reachedCount_succ_le hrel hv hr hreached
      omega
  have hbeyond : r < L.level (goal v) := h.lt_level_of_lt hlt hgoal
  refine ⟨⟨fun w => ?_, fun w hw => (hrel.1 w).trans (h.settled w hw), fun w hr => ?_, fun w hw hr => ?_,
    fun w hr => ?_, fun w i hw hi hr hwB => ?_, fun w hr hwB => ?_, fun w hw => ?_⟩, hself, hcount'⟩
  · rcases eq_or_ne w v with rfl | hne
    · rwa [dist_put_self]
    · rw [dist_put_of_ne hne]
      exact h.lower w
  · have hne : w ≠ v := fun hw => hr (hw ▸ hreached)
    rw [dist_put_of_ne hne]
    rw [Reached, hother hne] at hr
    exact h.same w hr
  · rcases eq_or_ne w v with rfl | hne
    · obtain ⟨u, hu, hle⟩ := hparent
      exact ⟨u, hu, hself ▸ (Nat.succ_le_succ (hL.levelOf_le hrel u)).trans hle⟩
    · rw [Reached, hother hne] at hr
      obtain ⟨u, hu, hle⟩ := h.parent w hw hr
      exact ⟨u, hu, (hother hne).symm ▸ (Nat.succ_le_succ (hL.levelOf_le hrel u)).trans hle⟩
  · rcases eq_or_ne w v with rfl | hne
    · rw [hself]
      exact ⟨hcount', hyB⟩
    · rw [Reached, hother hne] at hr
      rw [hother hne]
      exact ⟨(h.bounded w hr).1.trans (hL.reachedCount_mono hrel), (h.bounded w hr).2⟩
  · rcases eq_or_ne w v with rfl | hne
    · rw [hself] at hwB ⊢
      refine Or.inr (mem_fst_add.mpr (Or.inl ?_))
      rw [debtAt, if_pos hwB]
      exact mem_owedSlots.mpr ⟨i, hi, rfl⟩
    · rw [Reached, hother hne] at hr
      rw [hother hne] at hwB ⊢
      refine (h.cover w i hw hi hr hwB).imp (fun hle => (hrel.1 _).trans hle) fun hmem => ?_
      refine mem_fst_add.mpr (Or.inr ((mem_fst_add.mp hmem).resolve_left fun hmem => ?_))
      exact hne (hold _ hmem)
  · rcases eq_or_ne w v with rfl | hne
    · refine Or.inr (mem_snd_add.mpr (Or.inl ?_))
      rw [hself] at hwB
      rw [debtAt, if_neg (by omega)]
      exact mem_due.mpr rfl
    · rw [Reached, hother hne] at hr
      rw [hother hne] at hwB
      refine (h.last w hr hwB).imp id fun hmem => ?_
      exact mem_snd_add.mpr (Or.inr ((mem_snd_add.mp hmem).resolve_left (hold' w)))
  · have hfresh : w = v ∨ w ∈ s.nextFrontier ∨ w ∈ (old + o).2 := by
      refine hw.elim (fun hw => Or.inr (Or.inl hw)) fun hw => ?_
      rcases mem_snd_add.mp hw with hw | hw
      · left
        unfold debtAt at hw
        split at hw
        · exact (not_mem_owedSlots hw).elim
        · exact mem_due.mp hw
      · exact Or.inr (Or.inr (mem_snd_add.mpr (Or.inr hw)))
    rcases hfresh with rfl | hfresh
    · exact ⟨hbeyond, hreached⟩
    · exact ⟨(h.fresh w hfresh).1, hL.reached hrel (h.fresh w hfresh).2⟩

omit hL

/-- An owed slot need not be owed any longer if it is relaxed at the present distance. -/
theorem surrender {i : ℕ} (h : SearchInv G L source unreached goal r B s (owed u i x + o))
    (hdone : levelOf L s u = x → s.dist (G.outEdge i) ≤ L.make (x + 1) u) :
    SearchInv G L source unreached goal r B s o := by
  refine ⟨h.lower, h.settled, h.same, h.parent, h.bounded, fun w j hw hj hr hwB => ?_, fun w hr hwB => ?_,
    fun w hw => ?_⟩
  · rcases h.cover w j hw hj hr hwB with hle | hmem
    · exact Or.inl hle
    · rcases mem_fst_add.mp hmem with hmem | hmem
      · obtain ⟨rfl, rfl, hx⟩ : w = u ∧ j = i ∧ levelOf L s w = x := by
          have := mem_owed.mp hmem
          simpa using this
        rw [hx]
        exact Or.inl (hdone hx)
      · exact Or.inr hmem
  · exact (h.last w hr hwB).imp id fun hmem => (mem_snd_add.mp hmem).resolve_left not_mem_owed
  · exact h.fresh w (hw.imp id fun hmem => mem_snd_add.mpr (Or.inr hmem))

/-- An insertion into the next frontier settles what was owed to it. -/
theorem insert_due (h : SearchInv G L source unreached goal r B s (due v + o)) :
    SearchInv G L source unreached goal r B (nextFrontier.put (insert v (nextFrontier.get s)) s) o := by
  have hfresh := h.fresh v (Or.inr (mem_snd_add.mpr (Or.inl (mem_due.mpr rfl))))
  refine ⟨h.lower, h.settled, h.same, h.parent, h.bounded, fun w j hw hj hr hwB => ?_, fun w hr hwB => ?_,
    fun w hw => ?_⟩
  · refine (h.cover w j hw hj hr hwB).imp id fun hmem => ?_
    exact (mem_fst_add.mp hmem).resolve_left not_mem_due
  · rcases h.last w hr hwB with hmem | hmem
    · exact Or.inl (Finset.mem_insert_of_mem hmem)
    · rcases mem_snd_add.mp hmem with hmem | hmem
      · obtain rfl := mem_due.mp hmem
        exact Or.inl (Finset.mem_insert_self w s.nextFrontier)
      · exact Or.inr hmem
  · rcases hw with hw | hw
    · rcases Finset.mem_insert.mp hw with rfl | hw
      · exact hfresh
      · exact h.fresh w (Or.inl hw)
    · exact h.fresh w (Or.inr (mem_snd_add.mpr (Or.inr hw)))

end SearchInv

end Search

end ToggleTree
