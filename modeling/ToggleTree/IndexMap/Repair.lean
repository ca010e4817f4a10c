import ToggleTree.IndexMap.Exact

/-!
# Repair

The dirty flags below a node lead to the inserted indices. When values have only been lowered, and
only at inserted indices, the old least value of a node is still a lower bound for the elements
that have not been inserted, so that merging the values of the dirty children into it is exact.
-/

namespace ToggleTree

open Checked

/-- The loop over the flags of a word meets all of them. -/
theorem forall_range_popOffset {x : Word} {P : ℕ → Prop} :
    (∀ i ∈ List.range (popCount x), P (popOffset i x)) ↔ ∀ o ∈ bits x, P o := by
  rw [← map_popOffset_range]
  simp

/-- Different set bits have different numbers. -/
theorem popOffset_injective {x : Word} {i j : ℕ} (hi : i < popCount x) (hj : j < popCount x)
    (h : popOffset i x = popOffset j x) : i = j := by
  rw [popCount_eq_length] at hi hj
  rw [popOffset_eq_getD, popOffset_eq_getD, List.getD_eq_getElem _ _ hi, List.getD_eq_getElem _ _ hj] at h
  exact (bits_nodup x).getElem_inj_iff.mp h

namespace IndexMap

open IndexSet

variable {T : Type} [LinearOrder T] [OrderTop T] {n : ℕ} {S D : Finset ℕ} {old sequence : ℕ → T}

/-- The values of the elements of `S` have only been lowered, and only for elements of `D`. -/
structure Lowered (old sequence : ℕ → T) (S D : Finset ℕ) : Prop where
  le : ∀ i ∈ S, sequence i ≤ old i
  mem : ∀ i ∈ S, sequence i < old i → i ∈ D

namespace Lowered

variable (h : Lowered old sequence S D)
include h

omit [OrderTop T] in
/-- The value of an index that is not marked has not changed. -/
theorem eq {i : ℕ} (hi : i ∈ S) (hD : i ∉ D) : sequence i = old i :=
  (h.le i hi).eq_of_not_lt fun hlt => hD (h.mem i hi hlt)

/-- The old least value still counts for the elements that have not been inserted. -/
theorem le_minBelow_union {t : T} {K v : ℕ} :
    t ≤ minBelow sequence (S ∪ D) K v ↔ t ≤ minBelow old S K v ∧ t ≤ minBelow sequence D K v := by
  rw [le_minBelow, le_minBelow, le_minBelow]
  constructor
  · intro ht
    refine ⟨fun i hi hiv => ?_, fun i hi hiv => ht i (Finset.mem_union_right S hi) hiv⟩
    exact (ht i (Finset.mem_union_left D hi) hiv).trans (h.le i hi)
  · rintro ⟨hS, hD⟩ i hi hiv
    by_cases hiD : i ∈ D
    · exact hD i hiD hiv
    · have hiS := (Finset.mem_union.mp hi).resolve_right hiD
      rw [h.eq hiS hiD]
      exact hS i hiS hiv

end Lowered

/-- A node before a repair. -/
structure Pending (old : ℕ → T) (S D : Finset ℕ) (m : IndexMap T) (K v : ℕ) : Prop where
  exact : ExactNode old S m K v
  dirty : FlagWord (m.dirty.load K v) D K v

/-- A node after a repair. -/
structure Repaired (sequence : ℕ → T) (S : Finset ℕ) (m : IndexMap T) (K v : ℕ) : Prop where
  exact : ExactNode sequence S m K v
  dirty : m.dirty.load K v = 0

section Node

variable {m m' : IndexMap T} {K v L w : ℕ}

/-- A node that is the same stays pending. -/
theorem Pending.of_node (h : Pending old S D m K v) (hnode : m'.node K v = m.node K v) :
    Pending old S D m' K v := by
  have hdirty : m'.dirty.load K v = m.dirty.load K v := congrArg (fun x => x.2.1) hnode
  exact ⟨h.exact.of_node hnode, by rw [hdirty]; exact h.dirty⟩

/-- A node that is the same stays repaired. -/
theorem Repaired.of_node (h : Repaired sequence S m K v) (hnode : m'.node K v = m.node K v) :
    Repaired sequence S m' K v := by
  have hdirty : m'.dirty.load K v = m.dirty.load K v := congrArg (fun x => x.2.1) hnode
  exact ⟨h.exact.of_node hnode, hdirty.trans h.dirty⟩

/-- Nothing has to be done where nothing has been inserted. -/
theorem Pending.repaired (h : Pending old S D m K v) (hlow : Lowered old sequence S D)
    (hnone : ∀ i ∈ D, i / 64 ^ (K + 1) ≠ v) : Repaired sequence (S ∪ D) m K v where
  exact := by
    refine h.exact.congr (fun i hiv => ?_) fun i hi hiv => hlow.eq hi fun hD => hnone i hD hiv
    rw [Finset.mem_union]
    exact or_iff_left fun hD => hnone i hD hiv
  dirty := by
    by_contra hne
    obtain ⟨i, hi, hiv⟩ := h.dirty.ne_zero.mp hne
    exact hnone i hi hiv

/-- What a repair does to a node before it looks at the children. -/
def visit (m : IndexMap T) (L w : ℕ) : IndexMap T :=
  (m.setDirty L w 0).setFlag L w (m.flag.load L w ||| m.dirty.load L w)

omit [LinearOrder T] [OrderTop T] in
/-- A visit keeps the sizes. -/
theorem allocated_visit (h : Allocated n m) : Allocated n (m.visit L w) := h.setDirty.setFlag

omit [LinearOrder T] [OrderTop T] in
/-- The nodes after a visit. -/
theorem node_visit (h : Allocated n m) (hin : InBounds n L w) (K v : ℕ) :
    (m.visit L w).node K v =
      if K = L ∧ v = w then (m.flag.load K v ||| m.dirty.load K v, 0, m.augval K v) else m.node K v := by
  rw [visit, node_setFlag h.setDirty hin, node_setDirty h hin]
  by_cases hKv : K = L ∧ v = w
  · rw [if_pos hKv, if_pos hKv, if_pos hKv, hKv.1, hKv.2]
    rfl
  · rw [if_neg hKv, if_neg hKv, if_neg hKv]

/-- A visited node is repaired when it gets its least value. -/
theorem repaired_of_visit {m₁ m₂ : IndexMap T} {aggregate : T} (h : Pending old S D m L w)
    (hflag : m₁.flag.load L w = m.flag.load L w ||| m.dirty.load L w) (hdirty : m₁.dirty.load L w = 0)
    (hagg : aggregate = minBelow sequence (S ∪ D) (L + 1) w) (hm₂ : m₂ = m₁.setAugval L w aggregate) :
    Repaired sequence (S ∪ D) m₂ L w := by
  subst hm₂
  refine ⟨⟨?_, ?_⟩, hdirty⟩
  · change FlagWord (m₁.flag.load L w) (S ∪ D) L w
    rw [hflag]
    exact h.exact.flag.or h.dirty
  · rw [← hagg]
    exact if_pos ⟨rfl, rfl⟩

end Node

variable (schedule : ℕ → ℕ → Schedule)

/-- What the repair of a node returns and leaves behind. -/
structure RepairedBelow (n : ℕ) (sequence : ℕ → T) (S : Finset ℕ) (L w : ℕ) (m : IndexMap T)
    (r : T × IndexMap T) : Prop where
  value : r.1 = minBelow sequence S (L + 1) w
  nodes : ∀ K v, Under L w K v → Repaired sequence S r.2 K v
  changed : ChangedBelow n L w m r.2

/-- The node at the top gets its least value after the nodes below it have been repaired. -/
theorem RepairedBelow.finish {L w : ℕ} {m m₁ : IndexMap T} {aggregate : T} (halloc : Allocated n m₁)
    (h : Pending old S D m L w) (hflag : m₁.flag.load L w = m.flag.load L w ||| m.dirty.load L w)
    (hdirty : m₁.dirty.load L w = 0) (hagg : aggregate = minBelow sequence (S ∪ D) (L + 1) w)
    (hnodes : ∀ K v, Under L w K v → ¬(K = L ∧ v = w) → Repaired sequence (S ∪ D) m₁ K v)
    (hsame : ∀ K v, ¬Under L w K v → m₁.node K v = m.node K v) :
    RepairedBelow n sequence (S ∪ D) L w m (aggregate, m₁.setAugval L w aggregate) where
  value := hagg
  nodes K v hu := by
    by_cases hKv : K = L ∧ v = w
    · obtain ⟨rfl, rfl⟩ := hKv
      exact repaired_of_visit h hflag hdirty hagg rfl
    · exact (hnodes K v hu hKv).of_node ((node_setAugval m₁ aggregate K v).trans (if_neg hKv))
  changed := by
    refine ⟨halloc.setAugval, fun K v hu => ?_⟩
    rw [node_setAugval, if_neg (by rintro ⟨rfl, rfl⟩; exact hu (under_self K v))]
    exact hsame K v hu

/-- The least value of a repaired leaf. -/
theorem leastOf_leaf (hlow : Lowered old sequence S D) {m : IndexMap T} {w : ℕ} (h : Pending old S D m 0 w) :
    leastOf (m.augval 0 w) (List.range (popCount (m.dirty.load 0 w)))
      (fun i => sequence (w * 64 ^ (0 + 1) + popOffset i (m.dirty.load 0 w))) =
        minBelow sequence (S ∪ D) (0 + 1) w := by
  refine eq_of_forall_le_iff fun t => ?_
  rw [hlow.le_minBelow_union, le_leastOf, le_minBelow_succ h.dirty, ← h.exact.augval,
    forall_range_popOffset (P := fun o => t ≤ sequence (w * 64 ^ (0 + 1) + o))]
  refine and_congr_right fun _ => forall₂_congr fun o ho => ?_
  obtain ⟨_, i, hi, hio⟩ := (h.dirty o).mp ho
  rw [pow_zero, Nat.div_one] at hio
  rw [leaf_index, le_minBelow, ← hio]
  constructor
  · intro ht j _ hj
    rw [pow_zero, Nat.div_one] at hj
    rwa [hj]
  · intro ht
    exact ht i hi (by rw [pow_zero, Nat.div_one])

/-- The least value of an inner node, from the results for its dirty children. -/
theorem leastOf_children (hlow : Lowered old sequence S D) {m : IndexMap T} {L w : ℕ} {value : ℕ → T}
    (h : Pending old S D m (L + 1) w)
    (hvalue : ∀ i < popCount (m.dirty.load (L + 1) w),
      value i = minBelow sequence (S ∪ D) (L + 1) (64 * w + popOffset i (m.dirty.load (L + 1) w))) :
    leastOf (m.augval (L + 1) w) (List.range (popCount (m.dirty.load (L + 1) w))) value =
      minBelow sequence (S ∪ D) (L + 1 + 1) w := by
  refine eq_of_forall_le_iff fun t => ?_
  rw [hlow.le_minBelow_union, le_leastOf, le_minBelow_succ h.dirty, ← h.exact.augval]
  have hchild : (∀ i ∈ List.range (popCount (m.dirty.load (L + 1) w)), t ≤ value i) ↔
      ∀ o ∈ bits (m.dirty.load (L + 1) w), t ≤ minBelow sequence (S ∪ D) (L + 1) (64 * w + o) := by
    rw [← forall_range_popOffset]
    exact forall₂_congr fun i hi => by rw [hvalue i (List.mem_range.mp hi)]
  rw [hchild]
  refine and_congr_right fun ht => forall₂_congr fun o ho => ?_
  rw [hlow.le_minBelow_union, and_iff_right]
  rw [h.exact.augval, le_minBelow] at ht
  refine le_minBelow.mpr fun i hi hio => ht i hi ?_
  have := bits_lt ho
  rw [div_pow_succ, hio]
  omega

/-- A call of `repair` below a node makes the nodes below it exact. -/
theorem repairAt_spec (hlow : Lowered old sequence S D) (hD : ∀ i ∈ D, i < n) {L w : ℕ} {m : IndexMap T}
    (hin : InBounds n L w) (halloc : Allocated n m) (hpending : ∀ K v, Under L w K v → Pending old S D m K v) :
    RepairedBelow n sequence (S ∪ D) L w m (repairAt schedule sequence L (w * 64 ^ (L + 1)) m) := by
  induction L generalizing w m with
  | zero =>
    have htop := hpending 0 w (under_self 0 w)
    have hvisit := node_visit halloc hin
    have hself : (m.visit 0 w).node 0 w = (m.flag.load 0 w ||| m.dirty.load 0 w, 0, m.augval 0 w) := by
      rw [hvisit, if_pos ⟨rfl, rfl⟩]
    have hrepair : repairAt schedule sequence 0 (w * 64 ^ (0 + 1)) m =
        (leastOf (m.augval 0 w) (List.range (popCount (m.dirty.load 0 w)))
          (fun i => sequence (w * 64 ^ (0 + 1) + popOffset i (m.dirty.load 0 w))),
        (m.visit 0 w).setAugval 0 w (leastOf (m.augval 0 w) (List.range (popCount (m.dirty.load 0 w)))
          fun i => sequence (w * 64 ^ (0 + 1) + popOffset i (m.dirty.load 0 w)))) := by
      simp only [repairAt, wordId_node]
      rfl
    rw [hrepair]
    refine RepairedBelow.finish (allocated_visit halloc) htop (congrArg Prod.fst hself)
      (congrArg (fun x => x.2.1) hself) (leastOf_leaf hlow htop) (fun K v hu hKv => ?_) fun K v hu => ?_
    · have hK : K = 0 := Nat.le_zero.mp hu.1
      subst hK
      exact absurd ⟨rfl, by simpa using hu.2⟩ hKv
    · rw [hvisit, if_neg (by rintro ⟨rfl, rfl⟩; exact hu (under_self _ _))]
  | succ L ih =>
    have htop := hpending (L + 1) w (under_self (L + 1) w)
    have hvisit := node_visit halloc hin
    have hself : (m.visit (L + 1) w).node (L + 1) w =
        (m.flag.load (L + 1) w ||| m.dirty.load (L + 1) w, 0, m.augval (L + 1) w) := by
      rw [hvisit, if_pos ⟨rfl, rfl⟩]
    generalize hdirty : m.dirty.load (L + 1) w = dirty at hself
    have hbits : FlagWord dirty D (L + 1) w := hdirty ▸ htop.dirty
    let child := fun i => 64 * w + popOffset i dirty
    let body := fun i (r : (ℕ → T) × IndexMap T) =>
      let q := repairAt schedule sequence L (child i * 64 ^ (L + 1)) r.2
      (Function.update r.1 i q.1, q.2)
    let r := parallelFold (schedule (L + 1) w) (popCount dirty) ((fun _ => ⊤ : ℕ → T), m.visit (L + 1) w) body
    have hrepair : repairAt schedule sequence (L + 1) (w * 64 ^ (L + 1 + 1)) m =
        (leastOf (r.2.augval (L + 1) w) (List.range (popCount dirty)) r.1,
          r.2.setAugval (L + 1) w (leastOf (r.2.augval (L + 1) w) (List.range (popCount dirty)) r.1)) := by
      simp only [repairAt, wordId_node, child_index]
      subst hdirty
      rfl
    have hbelow {i K v : ℕ} (hi : i < popCount dirty) (hu : Under L (child i) K v) : Under (L + 1) w K v :=
      hu.parent (bits_lt (popOffset_mem_bits hi))
    have hnot {i K v : ℕ} (hu : Under L (child i) K v) : ¬(K = L + 1 ∧ v = w) := by
      rintro ⟨rfl, rfl⟩
      exact not_under_self L _ _ hu
    obtain ⟨hdone, halloc', hsame⟩ := parallelFold_below (fun r : (ℕ → T) × IndexMap T => r.2) (n := n) (L := L)
      (k := popCount dirty) child (schedule (L + 1) w) ((fun _ => ⊤ : ℕ → T), m.visit (L + 1) w) body
      (fun done r => ∀ i ∈ done, r.1 i = minBelow sequence (S ∪ D) (L + 1) (child i) ∧
        ∀ K v, Under L (child i) K v → Repaired sequence (S ∪ D) r.2 K v)
      (fun i hi j hj heq => popOffset_injective hi hj (Nat.add_left_cancel heq))
      (allocated_visit halloc) (fun i hi => absurd hi (Finset.notMem_empty i)) (by
        intro done i r hi hnotdone hdone hr hfresh hI
        have hin' : InBounds n L (child i) := by
          obtain ⟨_, j, hj, hji⟩ := (hbits _).mp (popOffset_mem_bits hi)
          exact ⟨by have := hin.1; omega, j, hD j hj, hji⟩
        have hq := ih hin' hr fun K v hu => by
          refine ((hpending K v (hbelow hi hu)).of_node ?_)
          rw [hfresh K v hu, hvisit, if_neg (hnot hu)]
        refine ⟨fun j hj => ?_, hq.changed⟩
        rcases Finset.mem_insert.mp hj with rfl | hj
        · exact ⟨(Function.update_self _ _ _).trans hq.value, hq.nodes⟩
        · have hji : j ≠ i := fun h => hnotdone (h ▸ hj)
          refine ⟨(Function.update_of_ne hji _ _).trans (hI j hj).1, fun K v hu => ?_⟩
          refine ((hI j hj).2 K v hu).of_node (hq.changed.same K v fun hu' => hji ?_)
          exact popOffset_injective (hdone j hj) hi (Nat.add_left_cancel (hu.unique hu')))
    have htopsame : r.2.node (L + 1) w = (m.visit (L + 1) w).node (L + 1) w :=
      hsame (L + 1) w fun i _ => not_under_self L _ _
    have haug : r.2.augval (L + 1) w = m.augval (L + 1) w := congrArg (fun x => x.2.2) htopsame
    rw [hrepair, haug]
    refine RepairedBelow.finish halloc' htop ?_ ?_ ?_ (fun K v hu hKv => ?_) fun K v hu => ?_
    · rw [hdirty]
      exact congrArg Prod.fst (htopsame.trans hself)
    · exact congrArg (fun x => x.2.1) (htopsame.trans hself)
    · rw [← hdirty]
      refine leastOf_children hlow htop fun i hi => ?_
      rw [hdirty] at hi ⊢
      exact (hdone i (Finset.mem_range.mpr hi)).1
    · obtain ⟨o, ho, hu'⟩ := hu.cases.resolve_left hKv
      by_cases hmem : o ∈ bits dirty
      · obtain ⟨i, hi, rfl⟩ : ∃ i < popCount dirty, popOffset i dirty = o := by
          rw [← map_popOffset_range] at hmem
          simpa using hmem
        exact (hdone i (Finset.mem_range.mpr hi)).2 K v hu'
      · refine ((hpending K v hu).repaired hlow fun i hi hiv => hmem ?_).of_node ?_
        · exact (hbits o).mpr ⟨ho, i, hi, hu'.div hiv⟩
        · rw [hsame K v, hvisit, if_neg hKv]
          intro i hi hu''
          have hoi : 64 * w + o = child i := hu'.unique hu''
          exact hmem ((Nat.add_left_cancel hoi) ▸ popOffset_mem_bits hi)
    · rw [hsame K v fun i hi hu' => hu (hbelow hi hu'), hvisit,
        if_neg (by rintro ⟨rfl, rfl⟩; exact hu (under_self _ _))]

/-- A repair makes the map exact for the tracked indices and the inserted ones, and returns the least
value of all of them. -/
theorem repair_spec (hlow : Lowered old sequence S D) {m : IndexMap T} (hflag : Represents n m.flag S)
    (hdirty : Represents n m.dirty D) (haug : ∀ K < numLayers n, ∀ v, m.augval K v = minBelow old S (K + 1) v) :
    (repair schedule sequence m).1 = (S ∪ D).inf sequence ∧
      Exact n sequence (S ∪ D) (repair schedule sequence m).2 := by
  have hpos := numLayers_pos n
  have hlayers : m.layers - 1 = numLayers n - 1 := congrArg (fun k => k - 1) hflag.size
  have hroot : ∀ i ∈ S ∪ D, i / 64 ^ (numLayers n - 1 + 1) = 0 := by
    intro i hi
    rw [Nat.sub_add_cancel hpos]
    rcases Finset.mem_union.mp hi with hi | hi
    · exact div_numLayers (hflag.lt hi)
    · exact div_numLayers (hdirty.lt hi)
  have hmin : minBelow sequence (S ∪ D) (numLayers n - 1 + 1) 0 = (S ∪ D).inf sequence := by
    rw [minBelow, Finset.filter_true_of_mem hroot]
  unfold repair
  rw [hlayers]
  by_cases hzero : m.dirty.load (numLayers n - 1) 0 = 0
  · rw [if_pos hzero]
    have hD : D = ∅ := hdirty.root_eq_zero.mp hzero
    subst hD
    have hvalue : ∀ i ∈ S, sequence i = old i := fun i hi => hlow.eq hi (Finset.notMem_empty i)
    have haug' : ∀ K < numLayers n, ∀ v, m.augval K v = minBelow sequence (S ∪ ∅) (K + 1) v := by
      intro K hK v
      rw [Finset.union_empty, haug K hK v]
      exact minBelow_congr (fun _ _ => Iff.rfl) fun i hi _ => (hvalue i hi).symm
    refine ⟨?_, ?_, hdirty, haug'⟩
    · rw [← hmin]
      exact haug' _ (by omega) 0
    · rw [Finset.union_empty]
      exact hflag
  · rw [if_neg hzero]
    have hin : InBounds n (numLayers n - 1) 0 := by
      obtain ⟨i, hi, hi0⟩ := (hdirty.load_ne_zero (by omega) 0).mp hzero
      exact ⟨by omega, i, hdirty.lt hi, hi0⟩
    have hpending : ∀ K < numLayers n, ∀ v, Pending old S D m K v := fun K hK v =>
      ⟨⟨flagWord_of_represents hflag hK v, haug K hK v⟩, flagWord_of_represents hdirty hK v⟩
    have h := repairAt_spec schedule hlow (fun i hi => hdirty.lt hi) hin
      ⟨hflag.size, hdirty.size, hflag.width, hdirty.width⟩
      fun K v hu => hpending K (by have := hu.1; omega) v
    rw [zero_mul] at h
    have hnodes : ∀ K < numLayers n, ∀ v, Repaired sequence (S ∪ D)
        (repairAt schedule sequence (numLayers n - 1) 0 m).2 K v := by
      intro K hK v
      by_cases hu : Under (numLayers n - 1) 0 K v
      · exact h.nodes K v hu
      · refine ((hpending K hK v).repaired hlow fun i hi hiv => hu ?_).of_node (h.changed.same K v hu)
        exact under_root hK (hdirty.lt hi) hiv
    refine ⟨h.value.trans hmin, exact_of_nodes h.changed.allocated (fun i hi => ?_)
      (fun K hK v => (hnodes K hK v).exact) fun K hK v => (hnodes K hK v).dirty⟩
    rcases Finset.mem_union.mp hi with hi | hi
    · exact hflag.lt hi
    · exact hdirty.lt hi

end IndexMap

end ToggleTree
